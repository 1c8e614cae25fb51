import DynVal.Proofs.Order.Leaves
import DynVal.Proofs.Sorting.Sorted
import DynVal.Records

/-!
# Values and names of records

The values of a record that is made were given to the operation that made it, or were values of the
record that it started from: a property that all of them have is one of the values of the result
(`Record.Values`). The names of the fields are those of the record that it started from, or were put
in strictly increasing order (`Record.Ordered`).
-/

namespace DynVal

open Std

namespace Record

variable {ν : Type} {V : ν → Prop} {r s : Record ν} {t : Tag} {v : ν} {ps : List (Tag × ν)}
  {vs : List (Option ν)}

/-- A property of the values of all fields. -/
def Values (V : ν → Prop) (r : Record ν) : Prop := ∀ f ∈ r.fields, V f.2

/-- A property of the values in all slots that are filled. -/
def Filled (V : ν → Prop) (vs : List (Option ν)) : Prop := ∀ o ∈ vs, ∀ v ∈ o, V v

instance : TransCmp fun p q : Tag × ν => p.1.compare q.1 where
  eq_swap {_ _} := @OrientedCmp.eq_swap _ Tag.compare _ _ _
  isLE_trans {_ _ _} := @TransCmp.isLE_trans _ Tag.compare _ _ _ _

theorem sortBy_perm (ps : List (Tag × ν)) : (sortBy (fun p q => p.1.compare q.1) ps).Perm ps := by
  rw [sortBy_eq_sorted]
  exact sorted_perm .four ps

theorem fields_ofPairs {name : Tag} (h : ofPairs name ps = .ok r) :
    r = ⟨name, sortBy (fun p q => p.1.compare q.1) ps, []⟩ := by
  unfold ofPairs at h
  dsimp only at h
  split at h
  · cases h
  · exact (Except.ok.inj h).symm

theorem values_ofPairs {name : Tag} (hps : ∀ p ∈ ps, V p.2) (h : ofPairs name ps = .ok r) :
    r.Values V := by
  rw [fields_ofPairs h]
  exact fun f hf => hps f ((sortBy_perm ps).mem_iff.mp hf)

theorem values_setAt (hr : r.Values V) (i : Nat) (hv : V v) : (r.setAt i v).Values V := by
  intro f hf
  obtain ⟨j, hj, rfl⟩ := List.getElem_of_mem hf
  simp only [setAt, List.getElem_modify]
  split
  · exact hv
  · exact hr _ (List.getElem_mem _)

theorem values_assoc (hr : r.Values V) (hv : V v) (h : r.assoc t v = .ok s) : s.Values V := by
  unfold assoc at h
  split at h
  · cases h
    exact values_setAt hr _ hv
  · cases h

theorem filled_slots : Filled V r.slots := by
  intro o ho v hv
  obtain ⟨f, -, rfl⟩ := List.mem_map.mp ho
  cases hv

theorem Filled.set (hvs : Filled V vs) (i : Nat) (hv : V v) : Filled V (vs.set i (some v)) := by
  intro o ho w hw
  rcases List.mem_or_eq_of_mem_set ho with ho | rfl
  · exact hvs o ho w hw
  · cases hw
    exact hv

theorem filled_fill {us : List (Option ν)} (hvs : Filled V vs) (hps : ∀ p ∈ ps, V p.2)
    (h : r.fill vs ps = .ok us) : Filled V us := by
  induction ps generalizing vs with
  | nil =>
    cases h
    exact hvs
  | cons p ps ih =>
    have hps' := List.forall_mem_cons.mp hps
    unfold fill at h
    split at h
    · cases h
    split at h
    · cases h
    · exact ih (hvs.set _ hps'.1) hps'.2 h

theorem filled_overlay (hvs : Filled V vs) (hps : ∀ p ∈ ps, V p.2) :
    Filled V (r.overlay vs ps) := by
  induction ps generalizing vs with
  | nil => exact hvs
  | cons p ps ih =>
    have hps' := List.forall_mem_cons.mp hps
    unfold overlay
    split
    · exact ih hvs hps'.2
    · exact ih (hvs.set _ hps'.1) hps'.2

theorem values_close {fs gs : List (Tag × ν)} (hvs : Filled V vs) (h : close fs vs = .ok gs) :
    ∀ f ∈ gs, V f.2 := by
  induction fs generalizing vs gs with
  | nil =>
    cases h
    exact fun f hf => (List.not_mem_nil hf).elim
  | cons p fs ih =>
    match vs, h with
    | some v :: vs, h =>
      have hvs' := List.forall_mem_cons.mp hvs
      unfold close at h
      split at h
      · rename_i rest hrest
        cases h
        exact List.forall_mem_cons.mpr ⟨hvs'.1 v rfl, ih hvs'.2 hrest⟩
      · cases h

theorem values_withSlots (hvs : Filled V vs) (h : r.withSlots vs = .ok s) : s.Values V := by
  unfold withSlots at h
  split at h
  · rename_i fields hfields
    cases h
    exact values_close hvs hfields
  · cases h

theorem values_withPairs (hps : ∀ p ∈ ps, V p.2) (h : r.withPairs ps = .ok s) : s.Values V := by
  unfold withPairs at h
  split at h
  · rename_i us hus
    exact values_withSlots (filled_fill filled_slots hps hus) h
  · cases h

theorem values_withFields (hps : ∀ p ∈ ps, V p.2) (h : r.withFields ps = .ok s) : s.Values V :=
  values_withSlots (filled_overlay filled_slots hps) h

/-! ## Names -/

/-- The fields stand in strictly increasing order. -/
def Ordered (r : Record ν) : Prop := r.names.Pairwise fun s t => s.compare t = .lt

theorem Ordered.of_names (hr : r.Ordered) (h : s.names = r.names) : s.Ordered := by
  rw [Ordered, h]
  exact hr

theorem nodup_of_pairwise_lt {ts : List Tag} (h : ts.Pairwise fun s t => s.compare t = .lt) :
    ts.Nodup := by
  refine h.imp ?_
  rintro s t hst rfl
  rw [@ReflCmp.compare_self _ Tag.compare] at hst
  cases hst

theorem Ordered.nodup (hr : r.Ordered) : r.names.Nodup := nodup_of_pairwise_lt hr

theorem lt_of_isLE_of_ne {s t : Tag} (h : (s.compare t).isLE = true) (hne : s ≠ t) :
    s.compare t = .lt := by
  cases hc : s.compare t with
  | lt => rfl
  | eq => exact absurd (LawfulEqCmp.eq_of_compare hc) hne
  | gt => simp [hc] at h

theorem pairwise_lt_of_repeated? {ts : List Tag}
    (h : ts.Pairwise fun s t => (s.compare t).isLE = true) (hr : repeated? ts = none) :
    ts.Pairwise fun s t => s.compare t = .lt := by
  induction ts with
  | nil => exact .nil
  | cons s ts ih =>
    cases ts with
    | nil => exact List.pairwise_singleton _ s
    | cons t ts =>
      unfold repeated? at hr
      split at hr
      · cases hr
      rename_i hne
      obtain ⟨hs, hts⟩ := List.pairwise_cons.mp h
      have hrest := ih hts hr
      have hlt : s.compare t = .lt := lt_of_isLE_of_ne (hs t (by simp)) hne
      refine List.pairwise_cons.mpr ⟨List.forall_mem_cons.mpr ⟨hlt, fun u hu => ?_⟩, hrest⟩
      exact TransCmp.lt_trans hlt (List.rel_of_pairwise_cons hrest hu)

theorem repeated?_of_pairwise_lt {ts : List Tag} (h : ts.Pairwise fun s t => s.compare t = .lt) :
    repeated? ts = none := by
  induction ts with
  | nil => rfl
  | cons s ts ih =>
    cases ts with
    | nil => rfl
    | cons t ts =>
      have hne : s ≠ t :=
        List.ne_of_not_mem_cons (List.nodup_cons.mp (nodup_of_pairwise_lt h)).1
      rw [repeated?, if_neg hne]
      exact ih h.of_cons

theorem ordered_ofPairs {name : Tag} (h : ofPairs name ps = .ok r) : r.Ordered := by
  have hr := fields_ofPairs h
  unfold ofPairs at h
  dsimp only at h
  split at h
  · cases h
  rename_i hnone
  rw [hr]
  refine pairwise_lt_of_repeated? (List.pairwise_map.mpr ?_) hnone
  rw [sortBy_eq_sorted]
  exact pairwise_sorted .four ps

/-- A record is made of any pairs that do not repeat a field. -/
theorem ofPairs_ok_iff {name : Tag} {ps : List (Tag × ν)} :
    (∃ r, ofPairs name ps = .ok r) ↔ (ps.map Prod.fst).Nodup := by
  have hperm := (sortBy_perm ps).map Prod.fst
  rw [← hperm.nodup_iff]
  constructor
  · rintro ⟨r, hr⟩
    have hnodup := (ordered_ofPairs hr).nodup
    rwa [fields_ofPairs hr] at hnodup
  · intro hd
    have hle : ((sortBy (fun p q => p.1.compare q.1) ps).map Prod.fst).Pairwise
        fun s t => (s.compare t).isLE = true := by
      rw [sortBy_eq_sorted]
      exact List.pairwise_map.mpr (pairwise_sorted .four ps)
    have hlt := hle.and hd
    have hnone := repeated?_of_pairwise_lt (hlt.imp fun h => lt_of_isLE_of_ne h.1 h.2)
    refine ⟨⟨name, sortBy (fun p q => p.1.compare q.1) ps, []⟩, ?_⟩
    simp only [ofPairs, hnone]

theorem ofPairs_error {name : Tag} {e : Error} (h : ofPairs name ps = .error e) :
    ∃ context field, e = .duplicateField context field := by
  unfold ofPairs at h
  dsimp only at h
  split at h
  · exact ⟨_, _, (Except.error.inj h).symm⟩
  · cases h

theorem names_setAt (i : Nat) : (r.setAt i v).names = r.names := by
  refine List.ext_getElem (by simp [names, setAt]) fun j hj hj' => ?_
  simp only [names, setAt, List.getElem_map, List.getElem_modify]
  split <;> rfl

theorem names_assoc (h : r.assoc t v = .ok s) : s.names = r.names := by
  unfold assoc at h
  split at h
  · cases h
    exact names_setAt _
  · cases h

theorem names_close {fs gs : List (Tag × ν)} (h : close fs vs = .ok gs) :
    gs.map (·.1) = fs.map (·.1) := by
  induction fs generalizing vs gs with
  | nil =>
    cases h
    rfl
  | cons p fs ih =>
    match vs, h with
    | some v :: vs, h =>
      unfold close at h
      split at h
      · rename_i rest hrest
        cases h
        exact congrArg (p.1 :: ·) (ih hrest)
      · cases h

theorem names_withSlots (h : r.withSlots vs = .ok s) : s.names = r.names := by
  unfold withSlots at h
  split at h
  · rename_i fields hfields
    cases h
    exact names_close hfields
  · cases h

theorem names_withPairs (h : r.withPairs ps = .ok s) : s.names = r.names := by
  unfold withPairs at h
  split at h
  · exact names_withSlots h
  · cases h

theorem names_withFields (h : r.withFields ps = .ok s) : s.names = r.names := names_withSlots h

end Record

theorem values_fieldPairs {op : String} {V : Value → Prop} {es : List (Value × Value)}
    {ps : List (Tag × Value)} (hes : ∀ e ∈ es, V e.2) (h : fieldPairs op es = .ok ps) :
    ∀ p ∈ ps, V p.2 := by
  induction es generalizing ps with
  | nil =>
    cases h
    exact fun p hp => (List.not_mem_nil hp).elim
  | cons e es ih =>
    have hes' := List.forall_mem_cons.mp hes
    unfold fieldPairs at h
    split at h
    · cases h
    split at h
    · cases h
    · rename_i qs hqs
      cases h
      exact List.forall_mem_cons.mpr ⟨hes'.1, ih hes'.2 hqs⟩

namespace Record

variable {V : Value → Prop} {r s : Record Value} {es : List (Value × Value)}

theorem values_fromEntries (hes : ∀ e ∈ es, V e.2) (h : r.fromEntries es = .ok s) :
    s.Values V := by
  unfold fromEntries at h
  split at h
  · rename_i ps hps
    exact values_withFields (values_fieldPairs hes hps) h
  · cases h

theorem names_fromEntries (h : r.fromEntries es = .ok s) : s.names = r.names := by
  unfold fromEntries at h
  split at h
  · exact names_withFields h
  · cases h

theorem values_assocAll {op : String} (hr : r.Values V) (hes : ∀ e ∈ es, V e.2)
    (h : r.assocAll op es = .ok s) : s.Values V := by
  induction es generalizing r with
  | nil =>
    cases h
    exact hr
  | cons e es ih =>
    have hes' := List.forall_mem_cons.mp hes
    unfold assocAll at h
    split at h
    · cases h
    split at h
    · cases h
    · rename_i q hq
      exact ih (values_assoc hr hes'.1 hq) hes'.2 h

theorem names_assocAll {op : String} (h : r.assocAll op es = .ok s) : s.names = r.names := by
  induction es generalizing r with
  | nil =>
    cases h
    rfl
  | cons e es ih =>
    unfold assocAll at h
    split at h
    · cases h
    split at h
    · cases h
    · rename_i q hq
      exact (ih h).trans (names_assoc hq)

end Record

end DynVal
