import DynVal.Proofs.Storage.Maps

/-!
# Maps by what is looked up in them

Two lists of entries in which every key is found hold the same if every look-up gives the same in
both. So what a merge comes to, or what is left of a map beside another one, need only be known up
to look-ups.

* `Entries.alike_of_lookup_eq`: the principle.
* `Entries.lookup_merge_all`, `Entries.lookup_within`: the two operations as look-ups.
* `Entries.length_merge_all`, `Entries.length_within`: how many entries they leave.
* `Map.Holds.diffNew`, `Set.holds_keys`: maps and sets of the entries and keys of one map that
  another has, or lacks.
* `Set.holds_union`, `Set.holds_intersection`, `Set.holds_difference`: the operations on two sets.
-/

namespace DynVal

namespace Entries

variable {κ ν : Type} {eq : κ → κ → Bool} {es fs : List (κ × ν)} {k l : κ}

/-- Every key is found, as it is equal to itself. -/
def Found (eq : κ → κ → Bool) (es : List (κ × ν)) : Prop := ∀ e ∈ es, eq e.1 e.1 = true

/-- The entries whose key another list has, or of those whose key it lacks. -/
def within (eq : κ → κ → Bool) (present : Bool) (es fs : List (κ × ν)) : List (κ × ν) :=
  es.filter fun e => (lookup eq e.1 fs).isSome == present

section

variable (he : PartialEquiv eq)
include he

theorem lookup_eq_of_eq (h : eq k l = true) (es : List (κ × ν)) :
    lookup eq k es = lookup eq l es := by
  simp only [lookup, he.congr_right h]

/-- A merge is looked up in front first. -/
theorem lookup_merge_all (h : Distinct eq es) (h' : Distinct eq fs) (k : κ) :
    lookup eq k (merge eq (fun _ => false) es fs) = (lookup eq k fs).or (lookup eq k es) := by
  rw [lookup_merge he _ h h']
  cases lookup eq k fs <;> rfl

theorem lookup_within (present : Bool) (es fs : List (κ × ν)) (k : κ) :
    lookup eq k (within eq present es fs) =
      if (lookup eq k fs).isSome = present then lookup eq k es else none := by
  induction es with
  | nil => simp [within, lookup]
  | cons e es ih =>
    rw [within, List.filter_cons, lookup_cons]
    by_cases hk : eq e.1 k = true
    · rw [lookup_eq_of_eq he hk fs, if_pos hk]
      split
      · rename_i hp
        rw [lookup_cons, if_pos hk, if_pos (by simpa using hp)]
      · rename_i hp
        refine ih.trans ?_
        rw [if_neg (by simpa using hp), if_neg (by simpa using hp)]
    · rw [if_neg hk]
      split
      · rw [lookup_cons, if_neg hk]
        exact ih
      · exact ih

theorem isSome_lookup_within (present : Bool) (es fs : List (κ × ν)) (k : κ) :
    (lookup eq k (within eq present es fs)).isSome =
      ((lookup eq k es).isSome && (lookup eq k fs).isSome == present) := by
  rw [lookup_within he]
  split
  · rename_i hp
    simp [hp]
  · rename_i hp
    simp [hp]

theorem Alike.within (present : Bool) {es' fs' : List (κ × ν)} (ha : Alike eq es es')
    (hb : Alike eq fs fs') (h : Distinct eq fs) :
    Alike eq (within eq present es fs) (within eq present es' fs') := by
  simp only [Entries.within, lookup_alike he h hb]
  refine ha.filter fun e f hef => ?_
  rcases hef.1 with heq | heq
  · rw [heq]
  · rw [lookup_eq_of_eq he heq]

theorem Found.alike (h : Found eq es) (ha : Alike eq es fs) : Found eq fs := by
  intro f hf
  obtain ⟨e, hm, hfe⟩ := (ha.symm he).exists_mem hf
  rcases hfe.1 with heq | heq
  · rw [heq]
    exact h e hm
  · exact he.trans heq (he.symm heq)

omit he in
theorem lookup_head {e : κ × ν} (h : Found eq (e :: es)) : lookup eq e.1 (e :: es) = some e.2 := by
  rw [lookup_cons, if_pos (h e List.mem_cons_self)]

/-- Entries whose keys are found are given by what is looked up, but for their order and equal
keys. -/
theorem alike_of_lookup_eq (h : Distinct eq es) (h' : Distinct eq fs) (hes : Found eq es)
    (hfs : Found eq fs) (heq : ∀ k, lookup eq k es = lookup eq k fs) : Alike eq es fs := by
  induction es generalizing fs with
  | nil =>
    cases fs with
    | nil => exact .refl []
    | cons f fs => cases (heq f.1).trans (lookup_head hfs)
  | cons e es ih =>
    have hfound := (heq e.1).symm.trans (lookup_head hes)
    obtain ⟨f, hf, hkey, hvalue⟩ := (lookup_eq_some_iff he h').mp hfound
    obtain ⟨as, bs, rfl⟩ := List.append_of_mem hf
    have hperm : (as ++ f :: bs).Perm (f :: (as ++ bs)) := List.perm_middle
    have hd := h'.perm he hperm
    have hef : eq e.1 f.1 = true := he.symm hkey
    have hrest (k : κ) : lookup eq k es = lookup eq k (as ++ bs) := by
      have hk := (heq k).trans (lookup_alike he h' (alike_of_perm hperm) k)
      rw [lookup_cons, lookup_cons, ← he.congr_left hef] at hk
      by_cases hek : eq e.1 k = true
      · have hfk : eq f.1 k = true := he.congr_left hef k ▸ hek
        rw [h.lookup_tail he hek, hd.lookup_tail he hfk]
      · rwa [if_neg hek, if_neg hek] at hk
    have hfound' : Found eq (as ++ bs) := fun d hd =>
      hfs d (hperm.mem_iff.mpr (List.mem_cons_of_mem f hd))
    have halike := ih h.tail hd.tail (fun d hd => hes d (List.mem_cons_of_mem _ hd)) hfound' hrest
    exact (halike.cons ⟨.inr hef, hvalue.symm⟩).trans he (alike_of_perm hperm.symm)

end

/-- A merge adds the entries whose key was not there. -/
theorem length_merge_all (he : PartialEquiv eq) (h : Distinct eq es) (h' : Distinct eq fs) :
    (merge eq (fun _ => false) es fs).length =
      es.length + (Entries.within eq false fs es).length := by
  induction fs generalizing es with
  | nil => rfl
  | cons f fs ih =>
    have hother : Entries.within eq false fs (put eq f.1 f.2 es) =
        Entries.within eq false fs es := by
      refine List.filter_congr fun g hg => ?_
      rw [lookup_put he h, if_neg ?_]
      simp [List.rel_of_pairwise_cons h' hg]
    show (merge eq (fun _ => false) (put eq f.1 f.2 es) fs).length = _
    rw [ih (h.put he f.1 f.2) h'.tail, hother, length_put]
    simp only [Entries.within, List.filter_cons]
    cases lookup eq f.1 es with
    | none =>
      simp only [Option.isSome_none, Bool.false_eq_true, if_false, beq_self_eq_true, if_true,
        List.length_cons]
      omega
    | some v => simp

theorem length_within (es fs : List (κ × ν)) :
    (within eq false es fs).length + (within eq true es fs).length = es.length := by
  have hsplit := @List.length_eq_length_filter_add _ es fun e => (lookup eq e.1 fs).isSome
  simp only [within, beq_false, beq_true]
  omega

theorem Alike.keys (h : Alike eq es fs) :
    Alike eq (Set.bare (es.map (·.1))) (Set.bare (fs.map (·.1))) := by
  simp only [Alike, Set.bare, List.map_map, ← Multiset.map_coe]
  rw [Multiset.rel_map]
  exact h.mono fun e _ f _ hef => ⟨hef.1, rfl⟩

/-- A set of keys has those that are found in the entries. -/
theorem isSome_lookup_keys (es : List (κ × ν)) (k : κ) :
    (lookup eq k (Set.bare (es.map (·.1)))).isSome = (lookup eq k es).isSome := by
  induction es with
  | nil => rfl
  | cons e es ih =>
    rw [List.map_cons, Set.bare, List.map_cons, lookup_cons, lookup_cons]
    split
    · rfl
    · exact ih

end Entries

open Entries

theorem filterAuxM_id {α : Type} (p : α → Bool) (xs acc : List α) :
    List.filterAuxM (m := Id) p xs acc = (xs.filter p).reverse ++ acc := by
  induction xs generalizing acc with
  | nil => rfl
  | cons x xs ih =>
    show List.filterAuxM (m := Id) p xs (cond (p x) (x :: acc) acc) = _
    rw [ih, List.filter_cons]
    cases p x <;> simp

theorem filterM_id {α : Type} (p : α → Bool) (xs : List α) :
    List.filterM (m := Id) p xs = xs.filter p := by
  show List.reverse (List.filterAuxM (m := Id) p xs []) = _
  rw [filterAuxM_id, List.append_nil, List.reverse_reverse]

namespace Map

variable {α : Type} {keyed : Keyed Id α} (hk : keyed.Lawful) {x y : Map α} {es fs : List (α × α)}
include hk

theorem entriesWhere_eq (present : Bool) (hy : y.Holds keyed fs) :
    Id.run (entriesWhere keyed present x y) =
      within keyed.test present (Storage.entries (x.resolved (m := Id) keyed)) fs := by
  have hcontains (e : α × α) : Id.run ((y.resolved (m := Id) keyed).contains keyed e.1) =
      (lookup keyed.test e.1 fs).isSome := Storage.contains_eq hk hy.resolved e.1
  have hentries : Id.run (x.entries keyed) = Storage.entries (x.resolved (m := Id) keyed) := rfl
  rw [entriesWhere, Id.run_bind, hentries]
  cases Storage.entries (x.resolved (m := Id) keyed) with
  | nil => rfl
  | cons e es =>
    show List.filterM (m := Id) (fun e : α × α =>
      Id.run ((y.resolved (m := Id) keyed).contains keyed e.1) == present) (e :: es) = _
    simp only [hcontains, filterM_id]
    rfl

theorem Holds.diffNew (hx : x.Holds keyed es) (hy : y.Holds keyed fs) :
    Map.Holds keyed (x.diffNew (m := Id) keyed y) (within keyed.test false es fs) := by
  have hd : Distinct keyed.test (Id.run (entriesWhere keyed false x y)) := by
    rw [entriesWhere_eq hk false hy]
    exact hx.resolved.lawful.distinct.filter _
  have hpairs := holds_ofPairs hk (Id.run (entriesWhere keyed false x y))
  rw [merge_of_distinct hd, List.nil_append, entriesWhere_eq hk false hy] at hpairs
  show Map.Holds keyed (Map.ofPairs (m := Id) keyed (Id.run (entriesWhere keyed false x y))) _
  rw [entriesWhere_eq hk false hy]
  exact ⟨hpairs.lawful, hpairs.resolved.of_alike hk
    (hx.resolved.alike.within hk.equiv false (.refl fs) (hy.distinct hk))⟩

end Map

namespace Set

variable {κ ν : Type} {keyed : Keyed Id κ} (hk : keyed.Lawful) {es : List (κ × ν)}
include hk

/-- The keys of distinct entries make a set that has these, and no others. -/
theorem holds_keys (h : Distinct keyed.test es) :
    Storage.Holds keyed (Set.ofList (m := Id) keyed (es.map (·.1))).members
      (bare (es.map (·.1))) := by
  have hd : Distinct keyed.test (bare (es.map (·.1))) := by
    rw [bare, List.map_map]
    exact List.pairwise_map.mpr h
  have hkeys := holds_ofList hk (es.map (·.1))
  rwa [merge_of_distinct hd, List.nil_append] at hkeys

omit hk in
theorem bare_keys (es : List (κ × Unit)) : bare (es.map (·.1)) = es := by
  simp [bare, Function.comp_def]

/-- A union has what putting the elements of one set into the other comes to. -/
theorem holds_union {s t : Set κ} {es : List (κ × Unit)} (hs : s.members.Holds keyed es) :
    ((Id.run (s.union? keyed t)).getD s).members.Holds keyed
      (Entries.merge keyed.test (fun _ => false) es t.members.entries) := by
  rw [← bare_keys t.members.entries]
  exact @holds_includeAll _ _ hk _ _ none hs t.elements

/-- The elements of one set that another has, or lacks, make a set that has these. -/
theorem holds_ofList_filter (present : Bool) {s t : Set κ} (hs : s.members.Lawful keyed)
    (ht : t.members.Lawful keyed) : Storage.Holds keyed (Set.ofList (m := Id) keyed
      (s.elements.filter fun x => Id.run (t.contains keyed x) == present)).members
      (within keyed.test present s.members.entries t.members.entries) := by
  have hfilter : (s.elements.filter fun x => Id.run (t.contains keyed x) == present) =
      (within keyed.test present s.members.entries t.members.entries).map (·.1) := by
    rw [elements, Storage.keys, List.filter_map]
    refine congrArg _ (List.filter_congr fun e _ => ?_)
    exact congrArg (· == present) (contains_eq hk ht.holds e.1)
  have hkeys := holds_keys hk (hs.distinct.filter
    fun e => (lookup keyed.test e.1 t.members.entries).isSome == present)
  rw [bare_keys] at hkeys
  rw [hfilter]
  exact hkeys

theorem holds_intersection {s t : Set κ} (hs : s.members.Lawful keyed)
    (ht : t.members.Lawful keyed) : Storage.Holds keyed (s.intersection (m := Id) keyed t).members
      (within keyed.test true s.members.entries t.members.entries) := by
  have hfilter := holds_ofList_filter hk true hs ht
  simp only [beq_true] at hfilter
  show Storage.Holds keyed (Set.ofList (m := Id) keyed
    (List.filterM (m := Id) (fun x => Id.run (t.contains keyed x)) s.elements)).members _
  rw [filterM_id]
  exact hfilter

theorem holds_difference {s t : Set κ} (hs : s.members.Lawful keyed)
    (ht : t.members.Lawful keyed) : Storage.Holds keyed (s.difference (m := Id) keyed t).members
      (within keyed.test false s.members.entries t.members.entries) := by
  have hfilter := holds_ofList_filter hk false hs ht
  simp only [beq_false] at hfilter
  show Storage.Holds keyed (Set.ofList (m := Id) keyed
    (List.filterM (m := Id) (fun x => !Id.run (t.contains keyed x)) s.elements)).members _
  rw [filterM_id]
  exact hfilter

end Set

end DynVal
