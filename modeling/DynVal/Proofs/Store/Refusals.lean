import DynVal.Proofs.Store.Decoding
import DynVal.Proofs.Store.Moves

/-!
# What encoding refuses

Functions, recur markers and numbers that are not finite have no encoded form. Encoding comes to
them through collections, the fields of records, the positions of tuples and the contents of cells
(`Value.Encloses`), but neither through the arguments of a recur marker nor below a quote. It stops
at the first one that it meets, so an error that has not to do with the depth names a value that
occurs.

* `Wire.formAt_succ_error`: an error at a value is its own or that of a value that it encloses.
* `Wire.formAt_error`: an error is about a value that occurs, unless the depth was not enough.
* `encode_refuses`: encoding succeeds just where nothing that is refused occurs, and otherwise names
  the type of such a value.
-/

namespace DynVal

open Relation

namespace Value

variable {entries : MapNode → List (Value × Value)} {content : Ref → Value} {v p : Value}

/-- One step of encoding into a value. -/
inductive Encloses (entries : MapNode → List (Value × Value)) (content : Ref → Value) :
    Value → Value → Prop where
  | item {l : ListNode} {p : Value} (h : p ∈ l.body.shown.toList) :
    Encloses entries content (.list l) p
  | key {x : MapNode} {e : Value × Value} (h : e ∈ entries x) :
    Encloses entries content (.map x) e.1
  | entry {x : MapNode} {e : Value × Value} (h : e ∈ entries x) :
    Encloses entries content (.map x) e.2
  | element {t : SetNode} {p : Value} (h : p ∈ t.body.elements) :
    Encloses entries content (.set t) p
  | field {r : RecordNode} {f : Tag × Value} (h : f ∈ r.body.fields) :
    Encloses entries content (.record r) f.2
  | tag (t : TupleNode) : Encloses entries content (.tuple t) t.body.tag
  | extra {t : TupleNode} {p : Value} (h : p ∈ t.body.extra) : Encloses entries content (.tuple t) p
  | cell (r : Ref) : Encloses entries content (.ref r) (content r)

/-- Encoding goes wherever printing does, but not into the arguments of recur markers. -/
theorem encloses_iff :
    Encloses entries content v p ↔ (∀ r, v ≠ .recur r) ∧ Leads entries content v p := by
  constructor
  · intro h
    refine ⟨fun r hr => ?_, ?_⟩
    · subst hr
      cases h
    · cases h with
      | item h => exact .part h
      | key h => exact .part (mem_contents_map h).1
      | entry h => exact .part (mem_contents_map h).2
      | element h => exact .part h
      | field h => exact .part (List.mem_map_of_mem h)
      | tag t => exact .part (tag_mem_parts t)
      | extra h => exact .part (extra_mem_parts _ h)
      | cell r => exact .cell r
  · rintro ⟨hr, h | r⟩
    · cases v with
      | recur r => exact absurd rfl (hr r)
      | list l => exact .item h
      | set t => exact .element h
      | map x =>
        obtain ⟨e, he, hp⟩ := List.mem_flatMap.mp h
        rcases List.mem_pair.mp hp with rfl | rfl
        · exact .key he
        · exact .entry he
      | record r =>
        obtain ⟨f, hf, rfl⟩ := List.mem_map.mp h
        exact .field hf
      | tuple t =>
        rcases List.mem_cons.mp h with rfl | h
        · exact .tag t
        · exact .extra h
      | _ => cases h
    · exact .cell r

theorem Encloses.leads (h : Encloses entries content v p) : Leads entries content v p :=
  (encloses_iff.mp h).2

theorem reaches_of_encloses (h : ReflTransGen (Encloses entries content) v p) :
    ReflTransGen (Leads entries content) v p :=
  ReflTransGen.mono (fun _ _ => Encloses.leads) v p h

end Value

/-! ## Errors without effects -/

namespace Wire

section Results

variable {α β ε : Type} {c : ExceptT ε Id α} {k : α → ExceptT ε Id β} {e : ε}

theorem run_bind_error_iff : Id.run (c >>= k).run = .error e ↔
    Id.run c.run = .error e ∨ ∃ a, Id.run c.run = .ok a ∧ Id.run (k a).run = .error e := by
  rw [ExceptT.run_bind]
  cases h : Id.run c.run with
  | ok a => simp [h]
  | error e => simp [h]

theorem run_pure_ne_error {a : α} : Id.run (pure a : ExceptT ε Id α).run ≠ .error e := by
  intro h
  cases h

theorem run_lift_ne_error {c : Id α} :
    Id.run (ExceptT.lift c : ExceptT ε Id α).run ≠ .error e := by
  intro h
  cases h

/-- A traversal stops with the error of an element. -/
theorem exists_of_run_mapM_error {f : α → ExceptT ε Id β} {xs : List α}
    (h : Id.run (xs.mapM f).run = .error e) : ∃ x ∈ xs, Id.run (f x).run = .error e := by
  induction xs with
  | nil => exact absurd h run_pure_ne_error
  | cons x xs ih =>
    simp only [List.mapM_cons, run_bind_error_iff, run_pure_ne_error, and_false, exists_false,
      or_false] at h
    rcases h with hx | ⟨y, -, hxs⟩
    · exact ⟨x, by simp, hx⟩
    · obtain ⟨x', hx', he⟩ := ih hxs
      exact ⟨x', by simp [hx'], he⟩

end Results

/-- Functions, recur markers, NaN and infinite numbers. -/
def isRefused : Value → Bool
  | .number n => !n.isFinite
  | .fn _ | .recur _ => true
  | _ => false

theorem isRefused_eq_false_iff {v : Value} :
    isRefused v = false ↔ (∃ r, v = .ref r) ∨ isEncodable v = true := by
  cases v <;> simp [isRefused, isEncodable]

section FormAt

open Value

variable {rank : Fn → Nat} {content : Ref → Value} {text : Value → OptionT Id String} {d : Nat}
  {v : Value} {e : Halt}

/-- The error that names a value, which is printed for it if it can be. -/
def refusal (text : Value → OptionT Id String) (v : Value) : Halt :=
  match Id.run (text v).run with
  | some t => .error (.unencodable v.typeName t)
  | none => .endless

theorem exists_refusal_eq (h : (Id.run (text v).run).isSome) :
    ∃ t, refusal text v = .error (.unencodable v.typeName t) := by
  obtain ⟨t, ht⟩ := Option.isSome_iff_exists.mp h
  exact ⟨t, by rw [refusal, ht]⟩

theorem run_unencodable_eq : Id.run (unencodable text v).run = .error (refusal text v) := by
  rw [refusal, unencodable, ExceptT.run_bind]
  change Id.run (ExceptT.run (match Id.run (text v).run with
    | some t => throw (.error (.unencodable v.typeName t))
    | none => throw .endless : ExceptT Halt Id Cirru)) = _
  cases Id.run (text v).run <;> rfl

/-- An error at a value is its own, or that of a value that it encloses. -/
theorem formAt_succ_error (h : formAt rank content text (d + 1) v = .error e) :
    (isRefused v = true ∧ e = refusal text v) ∨
      ∃ p, v.Encloses (entriesUnder rank) content p ∧ formAt rank content text d p = .error e := by
  unfold formAt at h ⊢
  cases v <;> simp only [encodeAt, run_bind_error_iff, run_pure_ne_error, run_lift_ne_error,
    run_lift_iff, run_unencodable_eq, compareEntries_id, and_false, exists_false, or_false,
    false_or, Except.error.injEq] at h
  case number n =>
    split at h
    · exact absurd h run_pure_ne_error
    · rename_i hn
      rw [run_unencodable_eq] at h
      exact .inl ⟨by simp [isRefused, hn], (Except.error.inj h).symm⟩
  case fn f => exact .inl ⟨rfl, h.symm⟩
  case recur r => exact .inl ⟨rfl, h.symm⟩
  case ref r => exact .inr ⟨_, .cell r, h⟩
  case list l =>
    obtain ⟨p, hp, he⟩ := exists_of_run_mapM_error h
    exact .inr ⟨p, .item hp, he⟩
  case set t =>
    obtain ⟨_, rfl, h⟩ := h
    obtain ⟨p, hp, he⟩ := exists_of_run_mapM_error h
    exact .inr ⟨p, .element ((sortedElements_perm t).mem_iff.mp hp), he⟩
  case tuple t =>
    obtain ⟨p, hp, he⟩ := exists_of_run_mapM_error h
    rcases List.mem_cons.mp hp with rfl | hp
    · exact .inr ⟨_, .tag t, he⟩
    · exact .inr ⟨p, .extra hp, he⟩
  case map x =>
    obtain ⟨_, rfl, _, rfl, h⟩ := h
    obtain ⟨f, hf, he⟩ := exists_of_run_mapM_error h
    have hf := (sortedEntries_perm x).mem_iff.mp hf
    simp only [encodeEntry, run_bind_error_iff, run_pure_ne_error, and_false, exists_false,
      or_false] at he
    rcases he with he | ⟨_, -, he⟩
    · exact .inr ⟨f.1, .key hf, he⟩
    · exact .inr ⟨f.2, .entry hf, he⟩
  case record r =>
    obtain ⟨f, hf, he⟩ := exists_of_run_mapM_error h
    simp only [encodeField, run_bind_error_iff, run_pure_ne_error, and_false, exists_false,
      or_false] at he
    exact .inr ⟨f.2, .field ((sortedFields_perm r).mem_iff.mp hf), he⟩

/-- An error is about a value that is refused and occurs, unless the depth was not enough. -/
theorem formAt_error (h : formAt rank content text d v = .error e) :
    (∃ q, ReflTransGen (Encloses (entriesUnder rank) content) v q ∧ isRefused q = true ∧
      e = refusal text q) ∨ (¬ v.EndsWithin (entriesUnder rank) content d ∧ e = .endless) := by
  induction d generalizing v with
  | zero => exact .inr ⟨id, (Except.error.inj h).symm⟩
  | succ d ih =>
    rcases formAt_succ_error h with ⟨hv, rfl⟩ | ⟨p, hp, hep⟩
    · exact .inl ⟨v, .refl, hv, rfl⟩
    rcases ih hep with ⟨q, hq, hr, rfl⟩ | ⟨hends, rfl⟩
    · exact .inl ⟨q, .head hp hq, hr, rfl⟩
    · exact .inr ⟨fun hv => hends (hv p hp.leads), rfl⟩

end FormAt

end Wire

/-! ## What occurs in a store -/

namespace Store

variable {s : Store} {g : Stage} {v p q : Value} {ρ : Ranking}

/-- Encoding the first value comes to the second one unless it stops before. -/
def Occurs (s : Store) (v q : Value) : Prop :=
  ReflTransGen (Value.Encloses s.shown s.content) v q

/-- Wherever printing comes to something that is refused, encoding comes to something that is. -/
theorem exists_occurs (h : ReflTransGen (Value.Leads s.shown s.content) v q)
    (hq : Wire.isRefused q = true) : ∃ q', s.Occurs v q' ∧ Wire.isRefused q' = true := by
  induction h using ReflTransGen.head_induction_on with
  | refl => exact ⟨q, .refl, hq⟩
  | @head v p hp _ ih =>
    by_cases hv : ∃ r, v = .recur r
    · obtain ⟨r, rfl⟩ := hv
      exact ⟨_, .refl, rfl⟩
    · obtain ⟨q', hq', hr⟩ := ih
      exact ⟨q', .head (Value.encloses_iff.mpr ⟨fun r hr => hv ⟨r, hr⟩, hp⟩) hq', hr⟩

theorem encodable_iff : s.Encodable v ↔ ¬ ∃ q, s.Occurs v q ∧ Wire.isRefused q = true := by
  constructor
  · rintro he ⟨q, hq, hr⟩
    rw [Wire.isRefused_eq_false_iff.mpr (he q (Value.reaches_of_encloses hq))] at hr
    cases hr
  · intro h p hp
    rw [← Wire.isRefused_eq_false_iff, ← Bool.not_eq_true]
    exact fun hr => h (exists_occurs hp hr)

/-- Encoding comes to the same values in a store and under a ranking. -/
theorem At.occurs_of_encloses (hs : s.At g) (hv : v.Sound g) (hρ : g.numbering.Admits ρ)
    (h : ReflTransGen (Value.Encloses (Value.entriesUnder ρ.rank) s.content) v q) :
    q.Sound g ∧ s.Occurs v q := by
  induction h with
  | refl => exact ⟨hv, .refl⟩
  | tail _ hp ih =>
    obtain ⟨hr, hp⟩ := Value.encloses_iff.mp hp
    refine ⟨hs.sound_of_leads Value.contents_subset_parts ih.1 hp,
      ih.2.tail (Value.encloses_iff.mpr ⟨hr, hp.congr fun x hx => ?_⟩)⟩
    subst hx
    exact (hs.shown_perm ih.1 hρ).symm

/-- An error of encoding, where descents end, names a value that occurs and is refused. -/
theorem At.encode_error (hs : s.At g) (hv : v.Sound g) (hc : ¬ s.Circular v) {e : Halt}
    (h : (Wire.encode v s).1 = .error e) :
    ∃ q t, s.Occurs v q ∧ Wire.isRefused q = true ∧ e = .error (.unencodable q.typeName t) := by
  obtain ⟨g', hext, hs', hform⟩ := hs.encode_eq hv
  obtain ⟨ρ, hρ⟩ := hs'.exists_admitted
  have hadm := hext.numbering.admits hρ
  rw [hform ρ hρ] at h
  rcases Wire.formAt_error h with ⟨q, hq, hr, rfl⟩ | ⟨hends, -⟩
  · obtain ⟨hsq, hocc⟩ := hs.occurs_of_encloses hv hadm hq
    -- what is refused is printed, as descents from it end as well
    have hcq := Value.not_circular_of_reaches (mt (hs.circular_iff hv hadm).mpr hc)
      (Value.reaches_of_encloses hq)
    obtain ⟨t, ht⟩ := Wire.exists_refusal_eq
      (Value.isSome_textBelow_iff.mpr (hs.endsWithin_reach hsq hcq))
    exact ⟨q, t, hocc, hr, ht⟩
  · exact absurd (hs.endsWithin_reach hv (mt (hs.circular_iff hv hadm).mpr hc)) hends

end Store

/-- Encoding succeeds just where nothing occurs that it refuses. Otherwise it names the type of such
a value. -/
theorem encode_refuses {host : Host} {s : Store} {log : Log} (h : History host s log) {v : Value}
    (hv : Held log v) (hc : ¬ s.Circular v) :
    ((∃ c, (Wire.encode v s).1 = .ok c) ↔ ¬ ∃ q, s.Occurs v q ∧ Wire.isRefused q = true) ∧
    ((∃ q, s.Occurs v q ∧ Wire.isRefused q = true) →
      ∃ q t, s.Occurs v q ∧ Wire.isRefused q = true ∧
        (Wire.encode v s).1 = .error (.error (.unencodable q.typeName t))) := by
  obtain ⟨g, hs, hk⟩ := h.exists_stage
  have hsv := hk.held hv
  have hok : (∃ c, (Wire.encode v s).1 = .ok c) ↔
      ¬ ∃ q, s.Occurs v q ∧ Wire.isRefused q = true := by
    rw [hs.exists_encode_iff hsv, and_iff_left hc, Store.encodable_iff]
  refine ⟨hok, fun hq => ?_⟩
  cases he : (Wire.encode v s).1 with
  | ok c => exact absurd hq (hok.mp ⟨c, he⟩)
  | error e =>
    obtain ⟨q, t, hocc, hr, rfl⟩ := hs.encode_error hsv hc he
    exact ⟨q, t, hocc, hr, rfl⟩

/-- A list with a reference to a cell that holds an infinite number. -/
theorem encode_refuses_infinity :
    let x : Value := .number (.ofBits 0x7ff0000000000000)
    let r : Ref := ⟨0, "ref:0"⟩
    let l : Value := .list ⟨0, .window 0 0 1 #[.ref r]⟩
    ∃ s t,
      History default s [(.makeList [.ref r], .ok (.value l)), (.create x, .ok (.value (.ref r)))] ∧
      (Wire.encode l s).1 = .error (.error (.unencodable "number" t)) := by
  intro x r l
  have hmade : History default _ [(.makeList [.ref r], .ok (.value l)),
      (.create x, .ok (.value (.ref r)))] :=
    (History.start.ask (.create x) (by simpa [Request.operands] using .scalar rfl)).ask
      (.makeList [.ref r]) (by simpa [Request.operands] using .scalar rfl)
  have hl : Held [(.makeList [.ref r], .ok (.value l)), (.create x, .ok (.value (.ref r)))] l :=
    .replied (q := .makeList [.ref r]) (r := .value l) List.mem_cons_self (by simp [Reply.held])
  generalize hs : ((Request.makeList [.ref r]).perform
    ((Request.create x).perform (.initial default)).2).2 = s at hmade
  have hcontent : s.content r = x := hs ▸ rfl
  have hlist (p : Value) (hp : Value.Leads s.shown s.content l p) : p = .ref r := by
    rw [Value.leads_iff_of_not_ref fun _ => Value.noConfusion] at hp
    exact List.mem_singleton.mp hp
  have href (p : Value) (hp : Value.Leads s.shown s.content (.ref r) p) : p = x :=
    (Value.leads_ref_iff.mp hp).trans hcontent
  have hnumber (p : Value) : ¬ Value.Leads s.shown s.content x p := by
    rw [Value.leads_iff_of_not_ref fun _ => Value.noConfusion]
    exact List.not_mem_nil
  have hcircular : ¬ s.Circular l := by
    have hwithin : Value.EndsWithin s.shown s.content 3 l := by
      intro p hp q hq u hu
      obtain rfl := hlist p hp
      obtain rfl := href q hq
      exact absurd hu (hnumber u)
    exact hwithin.not_circular
  have hoccurs : s.Occurs l x :=
    .head (.item List.mem_cons_self) (.single (hcontent ▸ .cell r))
  obtain ⟨q, t, hq, hr, he⟩ := (encode_refuses hmade hl hcircular).2 ⟨x, hoccurs, by decide⟩
  have hqx : q = x := by
    rcases ReflTransGen.cases_head hq with rfl | ⟨p, hp, hpq⟩
    · cases hr
    obtain rfl := hlist p hp.leads
    rcases ReflTransGen.cases_head hpq with rfl | ⟨u, hu, huq⟩
    · cases hr
    obtain rfl := href u hu.leads
    rcases ReflTransGen.cases_head huq with rfl | ⟨w, hw, -⟩
    · rfl
    · exact absurd hw.leads (hnumber w)
  rw [hqx] at he
  exact ⟨s, t, hmade, he⟩

end DynVal
