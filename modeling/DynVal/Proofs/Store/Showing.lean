import DynVal.Proofs.Store.Cells
import DynVal.Proofs.Store.Maps
import DynVal.Proofs.Tracking.Failures
import DynVal.Proofs.Wire.Forms

/-!
# Operations that show values

Printing and encoding a value look at all that it holds, through references as well. They combine
layers and compare elements on the way, and so change the memo. They keep it valid, as the cells
hold sound values, and the text or tree that comes out is the plain one (`Value.finds_textAt`,
`Wire.runs_encodeAt`).
-/

namespace DynVal

open Memo Tracking

namespace Memo

variable {g : Stage} {v : Value} {x : MapNode} {es : List (Value × Value)}

theorem gives_entries {P : Value → Prop} (hP : ∀ p, P p → p.Sound g) (hx : x.body.All P) :
    (following g).gives (fun es => ∀ e ∈ es, Entry P P e) (entries x)
      fun ρ => Value.entriesUnder ρ.rank x :=
  map (gives_storageOf ⟨fun _ _ ha hb => gives_equal (hP _ ha) (hP _ hb),
    fun _ ha => gives_hash (hP _ ha)⟩ hx) Storage.entries fun _ h => h

theorem gives_soundEntries (hx : MapNode.Made g x) :
    (following g).gives (fun es => ∀ e ∈ es, Entry (Value.Sound g) (Value.Sound g) e) (entries x)
      fun ρ => Value.entriesUnder ρ.rank x :=
  gives_entries (fun _ h => h) (MapNode.all_sound hx)

theorem gives_sort {P : Value → Prop} (hP : ∀ p, P p → p.Sound g) (grain : Sorting.Grain)
    {xs : List Value} (hxs : ∀ x ∈ xs, P x) :
    (following g).gives (fun ys => ∀ y ∈ ys, P y) (sortM grain compare xs)
      fun ρ => sorted grain (Value.order ρ.rank) xs :=
  gives_sortM (fun _ => inferInstance) grain hxs fun _ _ hx hy => gives_compare (hP _ hx) (hP _ hy)

end Memo

/-! ## Printing -/

namespace Value

variable {g : Stage} {v : Value} {content : Ref → Value}

/-- Any text, or none. -/
abbrev Prints (g : Stage) (c : OptionT (StateM Memo) String) (f : Ranking → OptionT Id String) :
    Prop := (following g).finds (fun _ => True) c f

theorem prints_pair {text : Value → OptionT (StateM Memo) String}
    {text' : Ranking → Value → OptionT Id String} {e : Value × Value}
    (hk : Prints g (text e.1) fun ρ => text' ρ e.1) (hv : Prints g (text e.2) fun ρ => text' ρ e.2)
    (f : String → String → String) :
    Prints g (do
        let k ← text e.1
        let v ← text e.2
        return f k v) fun ρ => do
      let k ← text' ρ e.1
      let v ← text' ρ e.2
      return f k v :=
  finds_bind hk fun k _ => finds_map hv (f k)

/-- The text of a value down to a depth, without effects. -/
abbrev textBelow (rank : Fn → Nat) (content : Ref → Value) (d : Nat) (v : Value) :
    OptionT Id String := textAt (entriesUnder rank) content d v

theorem prints_textAt (hc : ∀ r, (content r).Sound g) (d : Nat) (hv : v.Sound g) :
    Prints g (textAt Memo.entries content d v) fun ρ => textBelow ρ.rank content d v := by
  induction d generalizing v with
  | zero => exact finds_failure
  | succ d ih =>
    cases v <;> simp only [textAt]
    case ref r => exact finds_map (ih (hc r)) _
    case recur r => exact finds_map (finds_mapM fun x hx => ih (hv.parts x hx)) _
    case list l => exact finds_map (finds_mapM fun x hx => ih (hv.parts x hx)) _
    case set s => exact finds_map (finds_mapM fun x hx => ih (hv.parts x hx)) _
    case map x =>
      refine finds_bind (finds_lift (Memo.gives_soundEntries hv)) fun es hes => ?_
      exact finds_map (finds_mapM fun e he => prints_pair (ih (hes e he).1) (ih (hes e he).2) _) _
    case record r =>
      refine finds_map (finds_mapM fun f hf => finds_map (ih (hv.parts f.2 ?_)) _) _
      exact List.mem_map_of_mem hf
    case tuple t =>
      refine finds_bind (ih (hv.parts _ (tag_mem_parts t))) fun s _ => ?_
      exact finds_map (finds_mapM fun x hx => ih (hv.parts x (extra_mem_parts t hx))) _
    all_goals exact finds_pure trivial

theorem prints_inspectWith {text : Value → OptionT (StateM Memo) String}
    {text' : Ranking → Value → OptionT Id String} (hc : ∀ r, (content r).Sound g)
    (ht : ∀ v : Value, v.Sound g → Prints g (text v) fun ρ => text' ρ v) (hv : v.Sound g) :
    Prints g (inspectWith Memo.entries content text v)
      fun ρ => inspectWith (m := Id) (entriesUnder ρ.rank) content (text' ρ) v := by
  cases v <;> simp only [inspectWith]
  case tag t => exact finds_pure trivial
  case symbol s => exact finds_pure trivial
  case fn f => exact finds_pure trivial
  case ref r => exact finds_map (ht _ (hc r)) _
  case list l => exact finds_map (finds_mapM fun x hx => ht x (hv.parts x hx)) _
  case set s => exact finds_map (finds_mapM fun x hx => ht x (hv.parts x hx)) _
  case map x =>
    refine finds_bind (finds_lift (Memo.gives_soundEntries hv)) fun es hes => ?_
    exact finds_map (finds_mapM fun e he => prints_pair (ht _ (hes e he).1) (ht _ (hes e he).2) _) _
  all_goals exact ht _ hv

end Value

/-! ## Encoding -/

namespace Wire

variable {g : Stage} {v : Value} {content : Ref → Value}

theorem gives_compareEntries {a b : Value × Value} (ha : Entry (Value.Sound g) (Value.Sound g) a)
    (hb : Entry (Value.Sound g) (Value.Sound g) b) :
    (following g).givesAny (compareEntries Memo.compare a b)
      fun ρ => entryOrder (Value.order ρ.rank) a b :=
  gives_then ((following g).pure trivial) (Memo.gives_compare ha.1 hb.1)

theorem gives_sortEntries {es : List (Value × Value)}
    (hes : ∀ e ∈ es, Entry (Value.Sound g) (Value.Sound g) e) :
    (following g).gives (fun fs => ∀ f ∈ fs, Entry (Value.Sound g) (Value.Sound g) f)
      (sortM .eight (compareEntries Memo.compare) es)
      fun ρ => sorted .eight (compareEntries (m := Id) (Value.order ρ.rank)) es := by
  simp only [compareEntries_id]
  exact gives_sortM (fun _ => inferInstance) .eight hes fun _ _ ha hb => gives_compareEntries ha hb

/-- Any tree, or an error. -/
abbrev Encodes (g : Stage) (c : ExceptT Halt (StateM Memo) Cirru)
    (f : Ranking → ExceptT Halt Id Cirru) : Prop := (following g).runs (fun _ => True) c f

theorem encodes_unencodable {text : Value → OptionT (StateM Memo) String}
    {text' : Ranking → Value → OptionT Id String}
    (h : Value.Prints g (text v) fun ρ => text' ρ v) :
    Encodes g (unencodable text v) fun ρ => unencodable (text' ρ) v := by
  refine runs_bind (runs_lift h) fun t _ => ?_
  cases t <;> exact runs_throw

theorem encodes_encodeAt {text : Value → OptionT (StateM Memo) String}
    {text' : Ranking → Value → OptionT Id String} (hc : ∀ r, (content r).Sound g)
    (ht : ∀ v : Value, v.Sound g → Value.Prints g (text v) fun ρ => text' ρ v)
    (d : Nat) (hv : v.Sound g) :
    Encodes g (encodeAt Memo.entries Memo.compare content text d v)
      fun ρ => encodeAt (Value.entriesUnder ρ.rank) (Value.order ρ.rank) content (text' ρ) d v := by
  induction d generalizing v with
  | zero => exact runs_throw
  | succ d ih =>
    cases v <;> simp only [encodeAt]
    case number n =>
      split
      · exact runs_pure trivial
      · exact encodes_unencodable (ht _ hv)
    case fn f => exact encodes_unencodable (ht _ hv)
    case recur r => exact encodes_unencodable (ht _ hv)
    case ref r => exact runs_map (ih (hc r)) _
    case list l => exact runs_map (runs_mapM fun x hx => ih (hv.parts x hx)) _
    case tuple t => exact runs_map (runs_mapM fun x hx => ih (hv.parts x hx)) _
    case set s =>
      refine runs_bind (runs_lift (Memo.gives_sort (fun _ h => h) .eight hv.parts)) fun xs hxs => ?_
      exact runs_map (runs_mapM fun x hx => ih (hxs x hx)) _
    case map x =>
      refine runs_bind (runs_lift (Memo.gives_soundEntries hv)) fun es hes => ?_
      refine runs_bind (runs_lift (gives_sortEntries hes)) fun fs hfs => ?_
      refine runs_map (runs_mapM (R := fun _ => True) fun f hf => ?_) _
      exact runs_bind (ih (hfs f hf).1) fun k _ => runs_map (ih (hfs f hf).2) _
    case record r =>
      refine runs_map (runs_mapM fun f hf => runs_map (ih (hv.parts f.2 ?_)) _) _
      exact List.mem_map_of_mem ((sortedFields_perm r).mem_iff.mp hf)
    all_goals exact runs_pure trivial

end Wire

/-! ## Operations -/

namespace Op

variable {g : Stage} {v : Value}

theorem keeps_finite {t : OptionT (StateM Memo) String} {f : Ranking → OptionT Id String}
    (ht : Value.Prints g t f) : Keeps g (finite t) fun _ _ => True := by
  refine keeps_bind (yields_gives ht).keeps fun g' r _ _ => ?_
  cases r with
  | some t => exact (yields_pure trivial).keeps
  | none => exact keeps_throw _

theorem prints_text {s : Store} (hs : s.At g) {v : Value} (hv : v.Sound g) :
    Value.Prints g (s.text v) fun ρ => Value.textBelow ρ.rank s.content (s.reach v) v :=
  Value.prints_textAt hs.content_sound _ hv

theorem keeps_text (hv : v.Sound g) : Keeps g (text v) fun _ _ => True :=
  keeps_get fun _ hs => keeps_finite (prints_text hs hv)

theorem keeps_inspect (hv : v.Sound g) : Keeps g (inspect v) fun _ _ => True :=
  keeps_get fun _ hs => keeps_finite
    (Value.prints_inspectWith hs.content_sound (fun _ => prints_text hs) hv)

end Op

/-! ## The encoded form in a store -/

/-- The encoded form of a value in a store, without effects. -/
def Store.form (s : Store) (rank : Fn → Nat) (v : Value) : Except Halt Cirru :=
  Wire.formAt rank s.content (fun p => Value.textBelow rank s.content (s.reach p) p) (s.reach v) v

section Form

variable {s : Store} {g : Stage} {v : Value} {ρ : Ranking}

/-- What encoding gives is the plain form, whatever the memo knows. -/
theorem Store.At.encode_eq (hs : s.At g) (hv : v.Sound g) :
    ∃ g', g.Extends g' ∧ (Wire.encode v s).2.At g' ∧
      ∀ ρ : Ranking, g'.numbering.Admits ρ → (Wire.encode v s).1 = s.form ρ.rank v := by
  obtain ⟨g', r, hext, hs', hr, -, hform⟩ := Op.yields_gives
    (Wire.encodes_encodeAt hs.content_sound (fun _ => Op.prints_text hs) (s.reach v) hv) s hs
  have hget : ((get : Op Store) s).1 = .ok s := rfl
  have hbind : Wire.encode v s = _ := (Op.bind_ok hget).trans (Op.bind_ok hr)
  rw [hbind]
  cases r with
  | ok c => exact ⟨g', hext, hs', hform⟩
  | error h => exact ⟨g', hext, hs', hform⟩

theorem Wire.keeps_encode (hv : v.Sound g) : Op.Keeps g (Wire.encode v) fun _ _ => True := by
  intro s hs
  obtain ⟨g', hext, hs', -⟩ := hs.encode_eq hv
  exact ⟨g', hext, hs', fun _ _ => trivial⟩

end Form

end DynVal
