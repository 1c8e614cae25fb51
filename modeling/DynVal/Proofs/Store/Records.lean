import DynVal.Access
import DynVal.Proofs.Store.Maps
import DynVal.Proofs.Values.Records

/-!
# Operations on records and tuples keep values sound

A record is sound where its values are and its fields stand in order, a tuple where its items are.
-/

namespace DynVal

open Op

/-! ## Records -/

namespace RecordNode

variable {g : Stage} {r : RecordNode} {v : Value}

def Made (g : Stage) (r : RecordNode) : Prop := (Value.record r).Sound g

theorem values_sound (hr : (Value.record r).Sound g) : r.body.Values (Value.Sound g) :=
  fun f hf => hr.parts f.2 (List.mem_map_of_mem hf)

theorem ordered_of_sound {ρ : Ranking} (hr : (Value.record r).Sound g)
    (hρ : g.numbering.Admits ρ) : r.body.Ordered := (hr.wellFormed hρ).here

theorem yields_shareRecord {body : Record Value} (h : body.Values (Value.Sound g))
    (ho : body.Ordered) : Yields g (share body) fun g' r => Made g' r ∧ r.body = body := by
  refine (yields_share .record (fun _ => rfl) (fun n p hp => ?_) (fun _ _ _ => ho)
    nofun).mono fun _ _ _ h => ⟨h.2, h.1⟩
  obtain ⟨f, hf, rfl⟩ := List.mem_map.mp hp
  exact h f hf

/-- A record with the names of one that there is. -/
theorem keeps_shareOk {b : Except Error (Record Value)} (hr : (Value.record r).Sound g)
    (h : ∀ body, b = .ok body → body.Values (Value.Sound g))
    (hn : ∀ body, b = .ok body → body.names = r.body.names) :
    Keeps g (do Op.share (← Op.ofExcept b)) Made := by
  cases b with
  | error e => exact keeps_throw _
  | ok body =>
    refine keeps_of_admitted fun ρ hρ => ?_
    exact (yields_shareRecord (h body rfl)
      ((ordered_of_sound hr hρ).of_names (hn body rfl))).keeps.mono
      fun _ _ _ h => h.1

theorem yields_make {name : Tag} {ps : List (Tag × Value)} {body : Record Value}
    (hps : ∀ p ∈ ps, p.2.Sound g) (h : Record.ofPairs name ps = .ok body) :
    Yields g (make name ps) fun g' r => Made g' r ∧ r.body = body := by
  unfold make
  rw [h]
  exact yields_shareRecord (Record.values_ofPairs hps h) (Record.ordered_ofPairs h)

theorem keeps_make {name : Tag} {ps : List (Tag × Value)} (hps : ∀ p ∈ ps, p.2.Sound g) :
    Keeps g (make name ps) fun g' r => Made g' r ∧ Record.ofPairs name ps = .ok r.body := by
  cases h : Record.ofPairs name ps with
  | error e =>
    unfold make
    rw [h]
    exact keeps_throw _
  | ok body => exact (yields_make hps h).keeps.mono fun _ _ _ hr => ⟨hr.1, by rw [hr.2]⟩

theorem keeps_entries {m : MapNode} (hm : MapNode.Made g m) :
    Keeps g m.entries fun g' es => ∀ e ∈ es, e.2.Sound g' :=
  (MapNode.yields_entries hm).keeps.mono fun _ _ hext h e he => (h.1 e he).2.extends hext

section Operations

variable (hr : (Value.record r).Sound g)
include hr

theorem keeps_fromData (hv : v.Sound g) : Keeps g (r.fromData v) Made := by
  unfold fromData
  split
  · rename_i m
    refine keeps_bind (keeps_entries hv) fun g' es hext hes => ?_
    exact keeps_shareOk (hr.extends hext) (fun _ => Record.values_fromEntries hes)
      fun _ => Record.names_fromEntries
  · rename_i s
    exact keeps_shareOk hr (fun _ => Record.values_withFields (values_sound hv))
      fun _ => Record.names_withFields
  · exact keeps_throw _

theorem yields_withImpls (impls : List (Record Value)) : Yields g (r.withImpls impls) Made :=
  yields_of_admitted fun _ hρ => (@yields_shareRecord _ (r.body.withImpls impls)
    (values_sound hr) (ordered_of_sound hr hρ)).mono fun _ _ _ h => h.1

theorem keeps_assoc (t : Tag) (hv : v.Sound g) : Keeps g (r.assoc t v) Made :=
  keeps_shareOk hr (fun _ => Record.values_assoc (values_sound hr) hv) fun _ => Record.names_assoc

theorem keeps_withPairs {ps : List (Tag × Value)} (hps : ∀ p ∈ ps, p.2.Sound g) :
    Keeps g (r.withPairs ps) Made :=
  keeps_shareOk hr (fun _ => Record.values_withPairs hps) fun _ => Record.names_withPairs

theorem yields_toMap_body : Yields g r.toMap fun g' m => MapNode.Made g' m ∧
    ∀ ρ : Ranking, g'.numbering.Admits ρ →
      m.body = Id.run (Map.ofPairs (Memo.keysUnder ρ) r.body.entries) := by
  refine MapNode.yields_make fun p hp => ?_
  obtain ⟨f, hf, rfl⟩ := List.mem_map.mp hp
  exact ⟨Value.sound_of_level_eq_zero rfl, values_sound hr f hf⟩

theorem yields_toMap : Yields g r.toMap MapNode.Made :=
  (yields_toMap_body hr).mono fun _ _ _ h => h.1

theorem keeps_merge {m : MapNode} (hm : MapNode.Made g m) : Keeps g (r.merge m) Made := by
  refine keeps_bind (keeps_entries hm) fun g' es hext hes => ?_
  cases es with
  | nil => exact (yields_pure (Q := Made) (hr.extends hext)).keeps
  | cons e es =>
    exact keeps_shareOk (hr.extends hext)
      (fun _ => Record.values_assocAll (values_sound (hr.extends hext)) hes)
      fun _ => Record.names_assocAll

end Operations

end RecordNode

/-! ## Tuples -/

namespace TupleNode

variable {g : Stage} {t : TupleNode} {v : Value}

def Made (g : Stage) (t : TupleNode) : Prop := (Value.tuple t).Sound g

theorem yields_shareTuple {body : Tuple Value} (h : ∀ x ∈ body.items, x.Sound g) :
    Yields g (share body) fun g' t => Made g' t ∧ t.body = body :=
  (yields_share .tuple (fun _ => rfl) (fun _ => h) (fun _ _ _ => trivial)
    nofun).mono fun _ _ _ h => ⟨h.2, h.1⟩

theorem keeps_shareTuple {body : Tuple Value} (h : ∀ x ∈ body.items, x.Sound g) :
    Keeps g (share body) Made := (yields_shareTuple h).keeps.mono fun _ _ _ h => h.1

theorem yields_make {extra : List Value} {impls : List (Record Value)} (hv : v.Sound g)
    (he : ∀ x ∈ extra, x.Sound g) :
    Yields g (make v extra impls) fun g' t => Made g' t ∧ t.body = ⟨v, extra, impls⟩ :=
  yields_shareTuple (List.forall_mem_cons.mpr ⟨hv, he⟩)

theorem keeps_assoc (ht : (Value.tuple t).Sound g) (i : Nat) (hv : v.Sound g) :
    Keeps g (t.assoc i v) Made := by
  have htag := ht.parts _ (Value.tag_mem_parts t)
  have hextra : ∀ x ∈ t.body.extra, x.Sound g :=
    fun x hx => ht.parts x (Value.extra_mem_parts t hx)
  unfold TupleNode.assoc Tuple.assoc
  cases i with
  | zero => exact keeps_shareTuple (List.forall_mem_cons.mpr ⟨hv, hextra⟩)
  | succ i =>
    dsimp only
    split
    · refine keeps_shareTuple (List.forall_mem_cons.mpr ⟨htag, fun x hx => ?_⟩)
      rcases List.mem_or_eq_of_mem_set hx with hx | rfl
      · exact hextra x hx
      · exact hv
    · exact keeps_throw _

end TupleNode

theorem Value.yields_ofRecur {g : Stage} {xs : List Value} (h : ∀ x ∈ xs, x.Sound g) :
    Yields g (Value.ofRecur xs) fun g' v => v.Sound g' :=
  yields_bind (yields_share .recur (fun _ => rfl) (fun _ => h) (fun _ _ _ => trivial)
    nofun) fun _ _ _ h => yields_pure h.2

end DynVal
