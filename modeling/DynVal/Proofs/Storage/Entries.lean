import Mathlib.Data.Multiset.AddSub
import Mathlib.Data.Multiset.Filter

/-!
# Entries under an equality that is not reflexive

Lists of entries as finite maps. Keys are told apart by a Boolean test that is symmetric and
transitive, but need not be reflexive: a key that is not equal to itself is never found, and
putting it in adds an entry each time.

* `lookup`, `put`, `erase`, `merge`: the operations, on lists in which no two keys are equal
  (`Distinct`).
* `Alike`: two lists hold the same entries in any order, keys being replaced by equal ones.
* `alike_put`, `alike_merge`: what the operations come to up to `Alike`. Putting an entry in adds it
  to the entries with other keys, and a merge puts all its entries in at once.
-/

namespace DynVal.Entries

variable {κ ν : Type}

/-- A symmetric and transitive test. -/
structure PartialEquiv (eq : κ → κ → Bool) : Prop where
  symm : ∀ {x y}, eq x y = true → eq y x = true
  trans : ∀ {x y z}, eq x y = true → eq y z = true → eq x z = true

section

variable {eq : κ → κ → Bool} (he : PartialEquiv eq) {x y z : κ}
include he

theorem PartialEquiv.comm : eq x y = eq y x := Bool.eq_iff_iff.mpr ⟨he.symm, he.symm⟩

theorem PartialEquiv.congr_left (h : eq x y = true) (z : κ) : eq x z = eq y z :=
  Bool.eq_iff_iff.mpr ⟨he.trans (he.symm h), he.trans h⟩

theorem PartialEquiv.congr_right (h : eq x y = true) (z : κ) : eq z x = eq z y :=
  Bool.eq_iff_iff.mpr ⟨fun hz => he.trans hz h, fun hz => he.trans hz (he.symm h)⟩

end

variable (eq : κ → κ → Bool)

/-! ## Operations -/

/-- The value at the first entry with the key. -/
def lookup (k : κ) (es : List (κ × ν)) : Option ν := (es.find? fun e => eq e.1 k).map (·.2)

/-- Gives the first entry with the key a new value, or adds an entry at the end. -/
def put (k : κ) (v : ν) : List (κ × ν) → List (κ × ν)
  | [] => [(k, v)]
  | e :: es => if eq e.1 k then (e.1, v) :: es else e :: put k v es

/-- The entries without those that have the key. -/
def erase (k : κ) (es : List (κ × ν)) : List (κ × ν) := es.filter fun e => !eq e.1 k

/-- Puts entries in one after the other, those with a skipped value apart. -/
def merge (skip : ν → Bool) (es fs : List (κ × ν)) : List (κ × ν) :=
  fs.foldl (fun es f => if skip f.2 then es else put eq f.1 f.2 es) es

/-- No two keys are equal. -/
def Distinct (es : List (κ × ν)) : Prop := es.Pairwise fun e f => eq e.1 f.1 = false

/-- Two entries with one value, whose keys are identical or equal. -/
def AlikeEntry (e f : κ × ν) : Prop := (e.1 = f.1 ∨ eq e.1 f.1 = true) ∧ e.2 = f.2

/-- The same entries in any order, keys being replaced by equal ones. -/
def Alike (es fs : List (κ × ν)) : Prop :=
  Multiset.Rel (AlikeEntry eq) (es : Multiset (κ × ν)) (fs : Multiset (κ × ν))

/-! ## Entries that are alike -/

section Alike

variable {eq : κ → κ → Bool} (he : PartialEquiv eq) {es fs gs hs : List (κ × ν)} {e f : κ × ν}

theorem AlikeEntry.refl (e : κ × ν) : AlikeEntry eq e e := ⟨.inl rfl, rfl⟩

theorem Alike.refl (es : List (κ × ν)) : Alike eq es es :=
  Multiset.rel_refl_of_refl_on fun e _ => .refl e

theorem alike_of_perm (h : es.Perm fs) : Alike eq es fs := by
  rw [Alike, Multiset.coe_eq_coe.mpr h]
  exact Alike.refl fs

theorem Alike.cons (hef : AlikeEntry eq e f) (h : Alike eq es fs) :
    Alike eq (e :: es) (f :: fs) := by
  rw [Alike, ← Multiset.cons_coe, ← Multiset.cons_coe]
  exact .cons hef h

theorem Alike.append (h : Alike eq es fs) (h' : Alike eq gs hs) :
    Alike eq (es ++ gs) (fs ++ hs) := by
  rw [Alike, ← Multiset.coe_add, ← Multiset.coe_add]
  exact Multiset.Rel.add h h'

theorem Alike.length_eq (h : Alike eq es fs) : es.length = fs.length := by
  simpa using Multiset.card_eq_card_of_rel h

theorem Alike.exists_mem (h : Alike eq es fs) (hm : e ∈ es) : ∃ f ∈ fs, AlikeEntry eq e f := by
  simpa using Multiset.exists_mem_of_rel_of_mem h (by simpa using hm)

theorem Alike.uncons (h : Alike eq (e :: es) fs) :
    ∃ f gs, AlikeEntry eq e f ∧ Alike eq es gs ∧ fs.Perm (f :: gs) := by
  rw [Alike, ← Multiset.cons_coe, Multiset.rel_cons_left] at h
  obtain ⟨f, t, hef, hrest, hfs⟩ := h
  obtain ⟨gs, rfl⟩ := Quot.exists_rep t
  exact ⟨f, gs, hef, hrest, Multiset.coe_eq_coe.mp hfs⟩

/-- A test that tells no two alike entries apart picks alike entries. -/
theorem Alike.filter {p : κ × ν → Bool} (hp : ∀ e f, AlikeEntry eq e f → p e = p f)
    (h : Alike eq es fs) : Alike eq (es.filter p) (fs.filter p) := by
  induction es generalizing fs with
  | nil =>
    obtain rfl := List.length_eq_zero_iff.mp h.length_eq.symm
    exact .refl []
  | cons e es ih =>
    obtain ⟨f, gs, hef, hrest, hperm⟩ := h.uncons
    have hcons : Alike eq ((e :: es).filter p) ((f :: gs).filter p) := by
      rw [List.filter_cons, List.filter_cons, hp e f hef]
      split
      · exact (ih hrest).cons hef
      · exact ih hrest
    rw [Alike, Multiset.coe_eq_coe.mpr (hperm.filter p)]
    exact hcons

include he

theorem AlikeEntry.symm (h : AlikeEntry eq e f) : AlikeEntry eq f e :=
  ⟨h.1.imp Eq.symm he.symm, h.2.symm⟩

theorem AlikeEntry.trans {g : κ × ν} (h : AlikeEntry eq e f) (h' : AlikeEntry eq f g) :
    AlikeEntry eq e g := by
  refine ⟨?_, h.2.trans h'.2⟩
  rcases h.1 with h₁ | h₁
  · rw [h₁]
    exact h'.1
  rcases h'.1 with h₂ | h₂
  · exact .inr (h₂ ▸ h₁)
  · exact .inr (he.trans h₁ h₂)

theorem AlikeEntry.eq_key (h : AlikeEntry eq e f) (k : κ) : eq e.1 k = eq f.1 k := by
  rcases h.1 with h | h
  · rw [h]
  · exact he.congr_left h k

theorem Alike.symm (h : Alike eq es fs) : Alike eq fs es :=
  (Multiset.rel_flip.mpr h).mono fun _ _ _ _ h => AlikeEntry.symm he h

theorem Alike.trans (h : Alike eq es fs) (h' : Alike eq fs gs) : Alike eq es gs :=
  have : IsTrans (κ × ν) (AlikeEntry eq) := ⟨fun _ _ _ => AlikeEntry.trans he⟩
  Multiset.Rel.trans _ h h'

theorem Alike.erase (k : κ) (h : Alike eq es fs) : Alike eq (erase eq k es) (erase eq k fs) :=
  h.filter fun _ _ hef => by rw [hef.eq_key he]

/-! ## Distinct keys -/

theorem Distinct.perm (h : Distinct eq es) (hp : es.Perm fs) : Distinct eq fs :=
  (List.Perm.pairwise_iff (fun hef => by rwa [he.comm]) hp).mp h

theorem Distinct.alike (h : Distinct eq es) (ha : Alike eq es fs) : Distinct eq fs := by
  induction es generalizing fs with
  | nil =>
    obtain rfl := List.length_eq_zero_iff.mp ha.length_eq.symm
    exact .nil
  | cons e es ih =>
    obtain ⟨hes, hrest⟩ := List.pairwise_cons.mp h
    obtain ⟨f, gs, hef, hgs, hperm⟩ := ha.uncons
    refine Distinct.perm he (.cons (fun g hg => ?_) (ih hrest hgs)) hperm.symm
    obtain ⟨e', he', hge⟩ := (hgs.symm he).exists_mem hg
    rw [← hef.eq_key he, he.comm, hge.eq_key he, he.comm]
    exact hes e' he'

omit he in
theorem Distinct.erase (h : Distinct eq es) (k : κ) : Distinct eq (Entries.erase eq k es) :=
  List.Pairwise.filter _ h

theorem Distinct.cons_erase (h : Distinct eq es) (k : κ) (v : ν) :
    Distinct eq ((k, v) :: Entries.erase eq k es) := by
  refine .cons (fun e hm => ?_) (h.erase k)
  have := (List.mem_filter.mp hm).2
  rw [he.comm]
  simpa using this

/-- Where one key is equal to `k`, no other is. -/
theorem Distinct.erase_eq_self (h : Distinct eq (e :: es)) {k : κ} (hk : eq e.1 k = true) :
    Entries.erase eq k es = es := by
  refine List.filter_eq_self.mpr fun f hf => ?_
  rw [← he.congr_right hk, he.comm]
  simp [List.rel_of_pairwise_cons h hf]

/-- Of distinct entries only the one with the key is taken out. -/
theorem Distinct.perm_cons_erase (h : Distinct eq es) (hm : e ∈ es) (hself : eq e.1 e.1 = true) :
    es.Perm (e :: Entries.erase eq e.1 es) := by
  obtain ⟨as, bs, rfl⟩ := List.append_of_mem hm
  have hmiddle : (as ++ e :: bs).Perm (e :: (as ++ bs)) := List.perm_middle
  have herase := hmiddle.filter fun f => !eq f.1 e.1
  rw [List.filter_cons_of_neg (by simp [hself])] at herase
  have hrest : Entries.erase eq e.1 (as ++ bs) = as ++ bs :=
    (h.perm he hmiddle).erase_eq_self he hself
  unfold Entries.erase at hrest
  rw [hrest] at herase
  exact hmiddle.trans (herase.symm.cons e)

/-! ## Looking up -/

omit he in
theorem lookup_cons (k : κ) (e : κ × ν) (es : List (κ × ν)) :
    lookup eq k (e :: es) = if eq e.1 k = true then some e.2 else lookup eq k es := by
  simp only [lookup, List.find?_cons]
  cases eq e.1 k <;> rfl

theorem lookup_eq_some_iff (h : Distinct eq es) {k : κ} {v : ν} :
    lookup eq k es = some v ↔ ∃ e ∈ es, eq e.1 k = true ∧ e.2 = v := by
  induction es with
  | nil => simp [lookup]
  | cons e es ih =>
    rw [lookup_cons]
    by_cases hk : eq e.1 k = true
    · have hrest : ∀ f ∈ es, ¬eq f.1 k = true := by
        intro f hf hfk
        have := List.rel_of_pairwise_cons h hf
        rw [he.trans hk (he.symm hfk)] at this
        cases this
      rw [if_pos hk, Option.some.injEq]
      constructor
      · exact fun hv => ⟨e, by simp, hk, hv⟩
      · rintro ⟨f, hf, hfk, hv⟩
        rcases List.mem_cons.mp hf with rfl | hf
        · exact hv
        · exact absurd hfk (hrest f hf)
    · rw [if_neg hk, ih h.tail]
      constructor
      · exact fun ⟨f, hf, hfk⟩ => ⟨f, by simp [hf], hfk⟩
      · rintro ⟨f, hf, hfk⟩
        rcases List.mem_cons.mp hf with rfl | hf
        · exact absurd hfk.1 hk
        · exact ⟨f, hf, hfk⟩

theorem erase_of_lookup_eq_none (h : Distinct eq es) {k : κ} (hk : lookup eq k es = none) :
    Entries.erase eq k es = es := by
  refine List.filter_eq_self.mpr fun e hm => ?_
  rw [Bool.not_eq_true', ← Bool.not_eq_true]
  intro hek
  have hsome := (lookup_eq_some_iff he h).mpr ⟨e, hm, hek, rfl⟩
  rw [hk] at hsome
  cases hsome

theorem lookup_alike (h : Distinct eq es) (ha : Alike eq es fs) (k : κ) :
    lookup eq k es = lookup eq k fs := by
  have hmem {es fs : List (κ × ν)} (ha : Alike eq es fs) (v : ν) :
      (∃ e ∈ es, eq e.1 k = true ∧ e.2 = v) → ∃ f ∈ fs, eq f.1 k = true ∧ f.2 = v := by
    rintro ⟨e, hm, hk, rfl⟩
    obtain ⟨f, hf, hef⟩ := ha.exists_mem hm
    exact ⟨f, hf, hef.eq_key he k ▸ hk, hef.2.symm⟩
  ext v
  rw [lookup_eq_some_iff he h, lookup_eq_some_iff he (h.alike he ha)]
  exact ⟨hmem ha v, hmem (ha.symm he) v⟩

/-! ## Putting entries in -/

theorem alike_put (h : Distinct eq es) (k : κ) (v : ν) :
    Alike eq (put eq k v es) ((k, v) :: Entries.erase eq k es) := by
  induction es with
  | nil => exact .refl _
  | cons e es ih =>
    simp only [put]
    by_cases hk : eq e.1 k = true
    · rw [if_pos hk, Entries.erase, List.filter_cons_of_neg (by simp [hk])]
      have := h.erase_eq_self he hk
      unfold Entries.erase at this
      rw [this]
      exact (Alike.refl es).cons ⟨.inr hk, rfl⟩
    · rw [if_neg hk, Entries.erase, List.filter_cons_of_pos (by simp [hk])]
      exact ((ih h.tail).cons (.refl e)).trans he (alike_of_perm (.swap ..))

theorem Distinct.put (h : Distinct eq es) (k : κ) (v : ν) : Distinct eq (Entries.put eq k v es) :=
  (h.cons_erase he k v).alike he ((alike_put he h k v).symm he)

theorem Alike.put (ha : Alike eq es fs) (h : Distinct eq es) (k : κ) (v : ν) :
    Alike eq (Entries.put eq k v es) (Entries.put eq k v fs) :=
  (alike_put he h k v).trans he (((ha.erase he k).cons (.refl _)).trans he
    ((alike_put he (h.alike he ha) k v).symm he))

/-! ## Merging -/

/-- The entries whose key no entry of a merge has. -/
def untouched (eq : κ → κ → Bool) (skip : ν → Bool) (fs es : List (κ × ν)) : List (κ × ν) :=
  es.filter fun e => fs.all fun f => skip f.2 || !eq e.1 f.1

theorem alike_untouched (skip : ν → Bool) (ha : Alike eq es fs) (hb : Alike eq gs hs) :
    Alike eq (untouched eq skip gs es) (untouched eq skip hs fs) := by
  have hall : ∀ e : κ × ν, (gs.all fun g => skip g.2 || !eq e.1 g.1) =
      hs.all fun g => skip g.2 || !eq e.1 g.1 := by
    have hle {gs hs : List (κ × ν)} (hb : Alike eq gs hs) (e : κ × ν)
        (h : ∀ g ∈ gs, (skip g.2 || !eq e.1 g.1) = true) :
        ∀ g ∈ hs, (skip g.2 || !eq e.1 g.1) = true := by
      intro g hg
      obtain ⟨f, hf, hgf⟩ := (hb.symm he).exists_mem hg
      rw [hgf.2, he.comm, hgf.eq_key he, he.comm]
      exact h f hf
    intro e
    rw [Bool.eq_iff_iff, List.all_eq_true, List.all_eq_true]
    exact ⟨hle hb e, hle (hb.symm he) e⟩
  simp only [untouched, hall]
  refine ha.filter fun e f hef => ?_
  simp only [hef.eq_key he]

omit he in
/-- An entry that was put in stays, since no later one has its key. -/
theorem untouched_cons {skip : ν → Bool} (h : Distinct eq (f :: fs)) (hs : ¬skip f.2 = true)
    (es : List (κ × ν)) :
    untouched eq skip fs (f :: Entries.erase eq f.1 es) = f :: untouched eq skip (f :: fs) es := by
  have hstays : (fs.all fun g => skip g.2 || !eq f.1 g.1) = true := by
    simp only [List.all_eq_true, Bool.or_eq_true, Bool.not_eq_true']
    exact fun g hg => .inr (List.rel_of_pairwise_cons h hg)
  simp [untouched, Entries.erase, hs, hstays, List.filter_filter, Bool.and_comm]

omit he in
theorem untouched_of_skip {skip : ν → Bool} (hs : skip f.2 = true) (es : List (κ × ν)) :
    untouched eq skip (f :: fs) es = untouched eq skip fs es := by
  simp [untouched, hs]

omit he in
theorem untouched_perm (skip : ν → Bool) (hf : fs.Perm gs) (he : es.Perm hs) :
    (untouched eq skip fs es).Perm (untouched eq skip gs hs) := by
  simp only [untouched, hf.all_eq]
  exact he.filter _

theorem alike_merge (skip : ν → Bool) (h : Distinct eq es) (h' : Distinct eq fs) :
    Alike eq (merge eq skip es fs)
      (fs.filter (fun f => !skip f.2) ++ untouched eq skip fs es) := by
  induction fs generalizing es with
  | nil => simpa [merge, untouched] using Alike.refl es
  | cons f fs ih =>
    simp only [merge, List.foldl_cons]
    by_cases hs : skip f.2 = true
    · rw [if_pos hs, List.filter_cons_of_neg (by simp [hs]), untouched_of_skip hs]
      exact ih h h'.tail
    · rw [if_neg hs, List.filter_cons_of_pos (by simp [hs])]
      have hput := alike_untouched he skip (alike_put he h f.1 f.2) (@Alike.refl _ _ eq fs)
      rw [untouched_cons h' hs] at hput
      refine (ih (h.put he f.1 f.2) h'.tail).trans he (((Alike.refl _).append hput).trans he ?_)
      exact alike_of_perm List.perm_middle

theorem Distinct.merge (skip : ν → Bool) (h : Distinct eq es) (fs : List (κ × ν)) :
    Distinct eq (Entries.merge eq skip es fs) := by
  induction fs generalizing es with
  | nil => exact h
  | cons f fs ih =>
    simp only [Entries.merge, List.foldl_cons]
    split
    · exact ih h
    · exact ih (h.put he f.1 f.2)

theorem Alike.merge (skip : ν → Bool) (ha : Alike eq es fs) (hb : Alike eq gs hs)
    (h : Distinct eq es) (h' : Distinct eq gs) :
    Alike eq (Entries.merge eq skip es gs) (Entries.merge eq skip fs hs) := by
  refine (alike_merge he skip h h').trans he (Alike.trans he ?_
    ((alike_merge he skip (h.alike he ha) (h'.alike he hb)).symm he))
  exact (hb.filter fun e f hef => by rw [hef.2]).append (alike_untouched he skip ha hb)

theorem lookup_put (h : Distinct eq es) (k l : κ) (v : ν) :
    lookup eq l (put eq k v es) = if eq k l = true then some v else lookup eq l es := by
  rw [lookup_alike he (h.put he _ _) (alike_put he h _ _), lookup_cons]
  by_cases hk : eq k l = true
  · rw [if_pos hk, if_pos hk]
  rw [if_neg hk, if_neg hk]
  ext w
  rw [lookup_eq_some_iff he (h.erase _), lookup_eq_some_iff he h]
  constructor
  · exact fun ⟨e, hm, he⟩ => ⟨e, (List.mem_filter.mp hm).1, he⟩
  · rintro ⟨e, hm, hel, hv⟩
    refine ⟨e, List.mem_filter.mpr ⟨hm, ?_⟩, hel, hv⟩
    by_contra hf
    exact hk (he.trans (he.symm (by simpa using hf)) hel)

omit he in
/-- An entry is added just if the key was not found. -/
theorem length_put (k : κ) (v : ν) (es : List (κ × ν)) : (put eq k v es).length =
    if (lookup eq k es).isSome = true then es.length else es.length + 1 := by
  induction es with
  | nil => rfl
  | cons e es ih =>
    rw [lookup_cons, put]
    split
    · rfl
    · rw [List.length_cons, ih, List.length_cons]
      split <;> rfl

omit he in
theorem length_merge_le (eq : κ → κ → Bool) (skip : ν → Bool) (es fs : List (κ × ν)) :
    (merge eq skip es fs).length ≤ es.length + fs.length := by
  induction fs generalizing es with
  | nil => exact Nat.le_refl _
  | cons f fs ih =>
    simp only [merge, List.foldl_cons]
    split
    · exact (ih es).trans (by rw [List.length_cons]; omega)
    · have hput := @length_put _ _ eq f.1 f.2 es
      refine (ih _).trans ?_
      rw [hput, List.length_cons]
      split <;> omega

/-- A key that is found is found at the head only. -/
theorem Distinct.lookup_tail (h : Distinct eq (e :: es)) {k : κ} (hk : eq e.1 k = true) :
    lookup eq k es = none := by
  by_contra hne
  obtain ⟨v, hv⟩ := Option.ne_none_iff_exists'.mp hne
  obtain ⟨f, hf, hfk, -⟩ := (lookup_eq_some_iff he h.tail).mp hv
  have := List.rel_of_pairwise_cons h hf
  rw [he.trans hk (he.symm hfk)] at this
  cases this

/-- A merge is looked up in front first; a skipped value there counts as an absent one. -/
theorem lookup_merge (skip : ν → Bool) (h : Distinct eq es) (h' : Distinct eq fs) (k : κ) :
    lookup eq k (merge eq skip es fs) = match lookup eq k fs with
      | some v => if skip v = true then lookup eq k es else some v
      | none => lookup eq k es := by
  induction fs generalizing es with
  | nil => rfl
  | cons f fs ih =>
    simp only [merge, List.foldl_cons]
    rw [lookup_cons]
    by_cases hs : skip f.2 = true
    · rw [if_pos hs]
      refine (ih h h'.tail).trans ?_
      by_cases hk : eq f.1 k = true
      · rw [h'.lookup_tail he hk, if_pos hk]
        exact (if_pos hs).symm
      · rw [if_neg hk]
    · rw [if_neg hs]
      refine (ih (h.put he _ _) h'.tail).trans ?_
      rw [lookup_put he h]
      by_cases hk : eq f.1 k = true
      · rw [h'.lookup_tail he hk, if_pos hk, if_pos hk]
        exact (if_neg hs).symm
      · rw [if_neg hk, if_neg hk]

end Alike

/-! ## Keys that are not there yet -/

section New

variable {eq : κ → κ → Bool} {es fs : List (κ × ν)} {k : κ}

theorem erase_of_new (h : ∀ e ∈ es, eq e.1 k = false) : erase eq k es = es :=
  List.filter_eq_self.mpr fun e he => by simp [h e he]

theorem lookup_of_new (h : ∀ e ∈ es, eq e.1 k = false) : lookup eq k es = none := by
  rw [lookup, List.find?_eq_none.mpr fun e he => by simp [h e he]]
  rfl

theorem put_of_new (h : ∀ e ∈ es, eq e.1 k = false) (v : ν) : put eq k v es = es ++ [(k, v)] := by
  induction es with
  | nil => rfl
  | cons e es ih =>
    obtain ⟨he, hes⟩ := List.forall_mem_cons.mp h
    rw [put, if_neg (by simp [he]), ih hes]
    rfl

theorem Distinct.new (h : Distinct eq (es ++ (k, v) :: fs)) : ∀ e ∈ es, eq e.1 k = false :=
  fun e he => (List.pairwise_append.mp h).2.2 e he (k, v) (by simp)

/-- Distinct entries go in at the end, one after the other. -/
theorem merge_of_distinct (h : Distinct eq (es ++ fs)) :
    merge eq (fun _ => false) es fs = es ++ fs := by
  induction fs generalizing es with
  | nil => simp [merge]
  | cons f fs ih =>
    show merge eq (fun _ => false) (put eq f.1 f.2 es) fs = _
    rw [put_of_new h.new f.2, ih (by simpa using h)]
    simp

end New

/-! ## Tests that agree on some keys -/

section Congr

variable {eq eq' : κ → κ → Bool} {P : κ → Prop} {R : ν → Prop} {es fs : List (κ × ν)}
  {k : κ} {v : ν}

/-- Only the entry that is put in is new, and it may keep a key that was there. -/
theorem mem_put {e : κ × ν} (he : e ∈ put eq k v es) :
    e ∈ es ∨ e.2 = v ∧ (e.1 = k ∨ ∃ f ∈ es, eq f.1 k = true ∧ f.1 = e.1) := by
  induction es with
  | nil =>
    obtain rfl := List.mem_singleton.mp he
    exact .inr ⟨rfl, .inl rfl⟩
  | cons f es ih =>
    rw [put] at he
    split at he
    case isTrue hf =>
      rcases List.mem_cons.mp he with rfl | he
      · exact .inr ⟨rfl, .inr ⟨f, List.mem_cons_self, hf, rfl⟩⟩
      · exact .inl (List.mem_cons_of_mem _ he)
    case isFalse =>
      rcases List.mem_cons.mp he with rfl | he
      · exact .inl List.mem_cons_self
      rcases ih he with he | ⟨hv, rfl | ⟨d, hd, hdk, hde⟩⟩
      · exact .inl (List.mem_cons_of_mem _ he)
      · exact .inr ⟨hv, .inl rfl⟩
      · exact .inr ⟨hv, .inr ⟨d, List.mem_cons_of_mem _ hd, hdk, hde⟩⟩

theorem mem_put_of_ne {e : κ × ν} (he : e ∈ es) (hk : eq e.1 k = false) : e ∈ put eq k v es := by
  induction es with
  | nil => cases he
  | cons f es ih =>
    rw [put]
    rcases List.mem_cons.mp he with rfl | he
    · rw [if_neg (by simp [hk])]
      exact List.mem_cons_self
    · split
      · exact List.mem_cons_of_mem _ he
      · exact List.mem_cons_of_mem _ (ih he)

theorem forall_put (h : ∀ e ∈ es, P e.1 ∧ R e.2) (hk : P k) (hv : R v) :
    ∀ e ∈ put eq k v es, P e.1 ∧ R e.2 := by
  intro e he
  rcases mem_put he with he | ⟨rfl, rfl | ⟨f, hf, -, hkey⟩⟩
  · exact h e he
  · exact ⟨hk, hv⟩
  · exact ⟨hkey ▸ (h f hf).1, hv⟩

theorem forall_merge {skip : ν → Bool} (h : ∀ e ∈ es, P e.1 ∧ R e.2)
    (h' : ∀ f ∈ fs, P f.1 ∧ R f.2) : ∀ e ∈ merge eq skip es fs, P e.1 ∧ R e.2 := by
  induction fs generalizing es with
  | nil => exact h
  | cons f fs ih =>
    obtain ⟨hf, hfs⟩ := List.forall_mem_cons.mp h'
    simp only [merge, List.foldl_cons]
    split
    · exact ih h hfs
    · exact ih (forall_put h hf.1 hf.2) hfs

variable (heq : ∀ x y, P x → P y → eq x y = eq' x y)
include heq

theorem lookup_congr (h : ∀ e ∈ es, P e.1) (hk : P k) : lookup eq k es = lookup eq' k es := by
  induction es with
  | nil => rfl
  | cons e es ih =>
    obtain ⟨he, hes⟩ := List.forall_mem_cons.mp h
    rw [lookup_cons, lookup_cons, heq e.1 k he hk, ih hes]

theorem put_congr (h : ∀ e ∈ es, P e.1) (hk : P k) : put eq k v es = put eq' k v es := by
  induction es with
  | nil => rfl
  | cons e es ih =>
    obtain ⟨he, hes⟩ := List.forall_mem_cons.mp h
    rw [put, put, heq e.1 k he hk, ih hes]

theorem erase_congr (h : ∀ e ∈ es, P e.1) (hk : P k) : erase eq k es = erase eq' k es :=
  List.filter_congr fun e he => by rw [heq e.1 k (h e he) hk]

theorem merge_congr {skip skip' : ν → Bool} (h : ∀ e ∈ es, P e.1) (h' : ∀ f ∈ fs, P f.1)
    (hs : ∀ f ∈ fs, skip f.2 = skip' f.2) : merge eq skip es fs = merge eq' skip' es fs := by
  induction fs generalizing es with
  | nil => rfl
  | cons f fs ih =>
    obtain ⟨hf, hfs⟩ := List.forall_mem_cons.mp h'
    obtain ⟨hsf, hsfs⟩ := List.forall_mem_cons.mp hs
    simp only [merge, List.foldl_cons]
    rw [hsf, put_congr heq h hf]
    split
    · exact ih h hfs hsfs
    · refine ih (fun e he => ?_) hfs hsfs
      exact (forall_put (R := fun _ => True) (fun e he => ⟨h e he, trivial⟩) hf trivial e he).1

end Congr

end DynVal.Entries
