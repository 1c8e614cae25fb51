import DynVal.Proofs.Sorting.Answers
import DynVal.Sorting.Merge

/-!
# Insertion and merging put lists in order

* `yields_insertAll`: inserting elements into an ordered list keeps it ordered.
* `yields_merge`: merging two ordered lists orders their elements.
* `yields_mergeEnds`: so does merging them from both ends. After any number of steps each end has
  cut both lists in two, and what lies on one side of a cut may stand before what lies on the
  other (`Cut`). Two such cuts are nested, so the ends never take the same element
  (`cut_nested`).
-/

namespace DynVal.Sorting

open Comparing

variable {α : Type} {before : α → α → Bool} {P : α → Prop}

/-! ## Insertion -/

/-- The order of a list that is written from its greatest element down. -/
def Descends (before : α → α → Bool) (xs : List α) : Prop :=
  xs.Pairwise fun x y => before x y = false

theorem ordered_reverse {xs : List α} : Ordered before xs.reverse ↔ Descends before xs := by
  simp [Ordered, Descends, List.pairwise_reverse]

theorem descends_reverse {xs : List α} : Descends before xs.reverse ↔ Ordered before xs := by
  simp [Ordered, Descends, List.pairwise_reverse]

theorem yields_carry (hw : WeakOrder before) {x : α} (hx : P x) :
    ∀ (ys passed : List α), (∀ y ∈ ys, P y) → Descends before (passed.reverse ++ ys) →
      (∀ y ∈ passed, before x y = true) →
      (carry x passed ys).Yields before P fun zs =>
        zs.Perm (passed.reverse ++ x :: ys) ∧ Descends before zs := by
  intro ys
  induction ys with
  | nil =>
    intro passed _ hd hp
    refine yields_pure.mpr ⟨.refl _, ?_⟩
    simp only [Descends, List.append_nil, List.pairwise_append, List.mem_reverse,
      List.pairwise_singleton, List.mem_singleton, true_and] at hd ⊢
    refine ⟨hd, ?_⟩
    rintro y hy _ rfl
    exact hw.asymm (hp y hy)
  | cons y ys ih =>
    intro passed hP hd hp
    rw [carry, yields_bind, yields_less]
    refine ⟨hx, hP y (by simp), ?_⟩
    cases hxy : before x y with
    | true =>
      have hd' : Descends before ((y :: passed).reverse ++ ys) := by simpa using hd
      have hp' : ∀ z ∈ y :: passed, before x z = true := by simpa [hxy] using hp
      refine (ih (y :: passed) (fun z hz => hP z (by simp [hz])) hd' hp').mono ?_
      rintro zs ⟨hperm, hzs⟩
      refine ⟨hperm.trans ?_, hzs⟩
      simpa using (List.Perm.swap x y ys).append_left passed.reverse
    | false =>
      refine yields_pure.mpr ⟨.refl _, ?_⟩
      have hle : ∀ z ∈ y :: ys, before x z = false := by
        have hy := (List.pairwise_append.mp hd).2.1
        intro z hz
        rcases List.mem_cons.mp hz with rfl | hz
        · exact hxy
        · exact hw.trans (List.rel_of_pairwise_cons hy hz) hxy
      simp only [Descends, List.pairwise_append, List.pairwise_cons, List.mem_reverse] at hd ⊢
      refine ⟨hd.1, ⟨hle, hd.2.1⟩, ?_⟩
      intro z hz w hw'
      rcases List.mem_cons.mp hw' with rfl | hw'
      · exact hw.asymm (hp z hz)
      · exact hd.2.2 z hz w hw'

theorem yields_carryAll (hw : WeakOrder before) :
    ∀ (xs sorted : List α), (∀ x ∈ xs, P x) → (∀ x ∈ sorted, P x) → Descends before sorted →
      (carryAll sorted xs).Yields before P fun zs =>
        zs.Perm (sorted ++ xs) ∧ Descends before zs := by
  intro xs
  induction xs with
  | nil => intro sorted _ _ hd; exact yields_pure.mpr ⟨by simp, hd⟩
  | cons x xs ih =>
    intro sorted hxs hs hd
    rw [carryAll, yields_bind]
    refine (yields_carry hw (hxs x (by simp)) sorted [] hs (by simpa using hd) (by simp)).mono ?_
    rintro ys ⟨hperm, hys⟩
    simp only [List.reverse_nil, List.nil_append] at hperm
    have hP : ∀ y ∈ ys, P y := by
      intro y hy
      rcases List.mem_cons.mp (hperm.mem_iff.mp hy) with rfl | hy
      · exact hxs _ (by simp)
      · exact hs y hy
    refine (ih ys (fun z hz => hxs z (by simp [hz])) hP hys).mono ?_
    rintro zs ⟨hzs, hd'⟩
    exact ⟨(hzs.trans (hperm.append_right xs)).trans (by simpa using List.perm_middle.symm), hd'⟩

theorem yields_insertAll (hw : WeakOrder before) {sorted xs : List α} (hs : ∀ x ∈ sorted, P x)
    (hxs : ∀ x ∈ xs, P x) (ho : Ordered before sorted) :
    (insertAll sorted xs).Yields before P (Sorts before (sorted ++ xs)) := by
  rw [insertAll, yields_bind]
  refine (yields_carryAll hw xs sorted.reverse hxs (by simpa using hs)
    (descends_reverse.mpr ho)).mono ?_
  rintro zs ⟨hperm, hd⟩
  refine yields_pure.mpr ⟨?_, ordered_reverse.mpr hd⟩
  exact (List.reverse_perm zs).trans (hperm.trans ((List.reverse_perm sorted).append_right xs))

/-! ## Merging -/

/-- The question that decides a merge agrees with the order `r` of the lists, and goes on having
the same answer when the list that it went against is passed further. -/
structure Merges (r : α → α → Prop) (rightFirst : α → α → Bool) : Prop where
  trans : ∀ {x y z}, r x y → r y z → r x z
  right : ∀ {x y}, rightFirst x y = true → r y x
  left : ∀ {x y}, rightFirst x y = false → r x y
  right_of_le : ∀ {x y z}, rightFirst x y = true → r x z → rightFirst z y = true
  left_of_le : ∀ {x y z}, rightFirst x y = false → r y z → rightFirst x z = false

theorem merges_up (hw : WeakOrder before) :
    Merges (fun x y => before y x = false) fun x y => before y x where
  trans := hw.trans
  right := hw.asymm
  left := id
  right_of_le := hw.lt_of_lt_of_le
  left_of_le := hw.trans

theorem merges_down (hw : WeakOrder before) :
    Merges (fun x y => before x y = false) fun x y => !before y x where
  trans h h' := hw.trans h' h
  right h := by simpa using h
  left h := hw.asymm (by simpa using h)
  right_of_le h h' := by simpa using hw.trans h' (by simpa using h)
  left_of_le h h' := by simpa using hw.lt_of_le_of_lt h' (by simpa using h)

/-- The question is answered by `rightFirst` when it is put about elements in `P`. -/
def Answers (before : α → α → Bool) (P : α → Prop) (rightFirst : α → α → Bool)
    (ask : α → α → Comparing α Bool) : Prop :=
  ∀ {x y} {Q : Bool → Prop}, P x → P y → Q (rightFirst x y) → (ask x y).Yields before P Q

theorem answers_up : Answers before P (fun x y => before y x) fun x y => less y x :=
  fun hx hy hq => yields_less.mpr ⟨hy, hx, hq⟩

theorem answers_down : Answers before P (fun x y => !before y x) fun x y => notLess y x :=
  fun hx hy hq => yields_notLess.mpr ⟨hy, hx, hq⟩

theorem yields_mergeWith {r : α → α → Prop} {rf : α → α → Bool} (hm : Merges r rf)
    {ask : α → α → Comparing α Bool} (hask : Answers before P rf ask) (merged xs ys : List α) :
    (∀ x ∈ xs, P x) → (∀ y ∈ ys, P y) → xs.Pairwise r → ys.Pairwise r →
      (mergeWith ask merged xs ys).Yields before P fun zs =>
        ∃ ws, zs = merged.reverse ++ ws ∧ ws.Perm (xs ++ ys) ∧ ws.Pairwise r := by
  induction merged, xs, ys using mergeWith.induct with
  | case1 merged ys =>
    intro _ _ _ hr
    rw [mergeWith]
    exact yields_pure.mpr ⟨ys, rfl, .refl _, hr⟩
  | case2 merged x xs =>
    intro _ _ hr _
    rw [mergeWith]
    exact yields_pure.mpr ⟨x :: xs, rfl, by simp, hr⟩
  | case3 merged x xs y ys ihr ihl =>
    intro hxs hys hrx hry
    rw [mergeWith, yields_bind]
    refine hask (hxs x (by simp)) (hys y (by simp)) ?_
    cases h : rf x y with
    | true =>
      refine (ihr hxs (fun z hz => hys z (by simp [hz])) hrx hry.tail).mono ?_
      rintro _ ⟨ws, rfl, hperm, hr⟩
      refine ⟨y :: ws, by simp, ?_, List.pairwise_cons.mpr ⟨?_, hr⟩⟩
      · exact (hperm.cons y).trans List.perm_middle.symm
      · -- `y` stands before the head of the other list, and so before all that is left
        intro z hz
        rcases List.mem_append.mp (hperm.mem_iff.mp hz) with hz | hz
        · rcases List.mem_cons.mp hz with rfl | hz
          · exact hm.right h
          · exact hm.trans (hm.right h) (List.rel_of_pairwise_cons hrx hz)
        · exact List.rel_of_pairwise_cons hry hz
    | false =>
      refine (ihl (fun z hz => hxs z (by simp [hz])) hys hrx.tail hry).mono ?_
      rintro _ ⟨ws, rfl, hperm, hr⟩
      refine ⟨x :: ws, by simp, hperm.cons x, List.pairwise_cons.mpr ⟨?_, hr⟩⟩
      intro z hz
      rcases List.mem_append.mp (hperm.mem_iff.mp hz) with hz | hz
      · exact List.rel_of_pairwise_cons hrx hz
      · rcases List.mem_cons.mp hz with rfl | hz
        · exact hm.left h
        · exact hm.trans (hm.left h) (List.rel_of_pairwise_cons hry hz)

theorem yields_merge (hw : WeakOrder before) {xs ys : List α} (hxs : ∀ x ∈ xs, P x)
    (hys : ∀ y ∈ ys, P y) (hox : Ordered before xs) (hoy : Ordered before ys) :
    (merge xs ys).Yields before P (Sorts before (xs ++ ys)) := by
  unfold merge
  split
  · rw [mergeDown, yields_bind]
    refine (yields_mergeWith (merges_down hw) answers_down [] xs.reverse
      ys.reverse (by simpa using hxs) (by simpa using hys) (descends_reverse.mpr hox)
      (descends_reverse.mpr hoy)).mono ?_
    rintro zs ⟨ws, hzs, hperm, hd⟩
    obtain rfl : zs = ws := by simpa using hzs
    refine yields_pure.mpr ⟨?_, ordered_reverse.mpr hd⟩
    have hrev := (List.reverse_perm xs).append (List.reverse_perm ys)
    simpa using (List.reverse_perm zs).trans (hperm.trans hrev)
  · refine (yields_mergeWith (merges_up hw) answers_up [] xs ys hxs hys hox hoy).mono ?_
    rintro zs ⟨ws, hzs, hperm, ho⟩
    obtain rfl : zs = ws := by simpa using hzs
    exact ⟨hperm, ho⟩

/-! ## Merging from both ends -/

/-- Two lists are cut so that what stands left of the cut goes before what stands right of it. -/
structure Cut (rf : α → α → Bool) (xs ys : List α) (i j : Nat) : Prop where
  left : ∀ x ∈ xs.take i, ∀ y ∈ ys.drop j, rf x y = false
  right : ∀ y ∈ ys.take j, ∀ x ∈ xs.drop i, rf x y = true

/-- The heads of two lists after so many elements were taken off them. -/
structure Taken (r : α → α → Prop) (rf : α → α → Bool) (xs ys : List α) (i j : Nat)
    (heads : Heads α) : Prop where
  left : heads.left = xs.drop i
  right : heads.right = ys.drop j
  perm : heads.taken.Perm (xs.take i ++ ys.take j)
  ordered : heads.taken.reverse.Pairwise r
  cut : Cut rf xs ys i j

theorem taken_start (r : α → α → Prop) (rf : α → α → Bool) (xs ys : List α) :
    Taken r rf xs ys 0 0 ⟨xs, ys, []⟩ :=
  ⟨rfl, rfl, .refl _, .nil, by simp, by simp⟩

section Ends

variable {r : α → α → Prop} {rf : α → α → Bool} {xs ys : List α} {i j : Nat} {heads : Heads α}

/-- What was taken may stand before what is left. -/
theorem Taken.le_left (hm : Merges r rf) (hxs : xs.Pairwise r) (ht : Taken r rf xs ys i j heads) :
    ∀ z ∈ heads.taken, ∀ x ∈ xs.drop i, r z x := by
  intro z hz x hx
  rcases List.mem_append.mp (ht.perm.mem_iff.mp hz) with hz | hz
  · rw [← List.take_append_drop i xs] at hxs
    exact (List.pairwise_append.mp hxs).2.2 z hz x hx
  · exact hm.right (ht.cut.right z hz x hx)

theorem Taken.le_right (hm : Merges r rf) (hys : ys.Pairwise r)
    (ht : Taken r rf xs ys i j heads) : ∀ z ∈ heads.taken, ∀ y ∈ ys.drop j, r z y := by
  intro z hz y hy
  rcases List.mem_append.mp (ht.perm.mem_iff.mp hz) with hz | hz
  · exact hm.left (ht.cut.left z hz y hy)
  · rw [← List.take_append_drop j ys] at hys
    exact (List.pairwise_append.mp hys).2.2 z hz y hy

/-- Taking the head of the right list moves the cut past it. -/
theorem Taken.take_right (hm : Merges r rf) (hxs : xs.Pairwise r) (hys : ys.Pairwise r)
    (ht : Taken r rf xs ys i j heads) {x y : α} {xs' ys' : List α} (hx : xs.drop i = x :: xs')
    (hy : ys.drop j = y :: ys') (h : rf x y = true) :
    Taken r rf xs ys i (j + 1) ⟨heads.left, ys', y :: heads.taken⟩ := by
  have hj : ys.take (j + 1) = ys.take j ++ [y] := by
    rw [List.take_add, hy]; rfl
  have hj' : ys.drop (j + 1) = ys' := by rw [← List.drop_drop, hy]; rfl
  refine ⟨ht.left, hj'.symm, ?_, ?_, ?_, ?_⟩
  · rw [hj, ← List.append_assoc]
    exact (ht.perm.cons y).trans (List.perm_append_singleton y _).symm
  · simp only [List.reverse_cons, List.pairwise_append, List.pairwise_singleton, true_and,
      List.mem_reverse, List.mem_singleton]
    refine ⟨ht.ordered, ?_⟩
    rintro z hz _ rfl
    exact ht.le_right hm hys z hz _ (by simp [hy])
  · intro z hz w hw
    rw [hj'] at hw
    exact ht.cut.left z hz w (by simp [hy, hw])
  · intro z hz w hw
    rw [hj] at hz
    rcases List.mem_append.mp hz with hz | hz
    · exact ht.cut.right z hz w hw
    · obtain rfl := List.mem_singleton.mp hz
      rw [hx] at hw
      rcases List.mem_cons.mp hw with rfl | hw
      · exact h
      · have hxr : (x :: xs').Pairwise r := hx ▸ hxs.drop
        exact hm.right_of_le h (List.rel_of_pairwise_cons hxr hw)

theorem Taken.take_left (hm : Merges r rf) (hxs : xs.Pairwise r) (hys : ys.Pairwise r)
    (ht : Taken r rf xs ys i j heads) {x y : α} {xs' ys' : List α} (hx : xs.drop i = x :: xs')
    (hy : ys.drop j = y :: ys') (h : rf x y = false) :
    Taken r rf xs ys (i + 1) j ⟨xs', heads.right, x :: heads.taken⟩ := by
  have hi : xs.take (i + 1) = xs.take i ++ [x] := by
    rw [List.take_add, hx]; rfl
  have hi' : xs.drop (i + 1) = xs' := by rw [← List.drop_drop, hx]; rfl
  refine ⟨hi'.symm, ht.right, ?_, ?_, ?_, ?_⟩
  · rw [hi, List.append_assoc]
    exact (ht.perm.cons x).trans List.perm_middle.symm
  · simp only [List.reverse_cons, List.pairwise_append, List.pairwise_singleton, true_and,
      List.mem_reverse, List.mem_singleton]
    refine ⟨ht.ordered, ?_⟩
    rintro z hz _ rfl
    exact ht.le_left hm hxs z hz _ (by simp [hx])
  · intro z hz w hw
    rw [hi] at hz
    rcases List.mem_append.mp hz with hz | hz
    · exact ht.cut.left z hz w hw
    · obtain rfl := List.mem_singleton.mp hz
      rw [hy] at hw
      rcases List.mem_cons.mp hw with rfl | hw
      · exact h
      · have hyr : (y :: ys').Pairwise r := hy ▸ hys.drop
        exact hm.left_of_le h (List.rel_of_pairwise_cons hyr hw)
  · intro z hz w hw
    rw [hi'] at hw
    exact ht.cut.right z hz w (by simp [hx, hw])

theorem yields_take (hm : Merges r rf) {ask : α → α → Comparing α Bool}
    (hask : Answers before P rf ask) (hpx : ∀ x ∈ xs, P x) (hpy : ∀ y ∈ ys, P y)
    (hxs : xs.Pairwise r) (hys : ys.Pairwise r) (ht : Taken r rf xs ys i j heads)
    (hi : i < xs.length) (hj : j < ys.length) :
    (heads.take ask).Yields before P fun heads' =>
      ∃ i' j', i' + j' = i + j + 1 ∧ Taken r rf xs ys i' j' heads' := by
  obtain ⟨left, right, taken⟩ := heads
  obtain ⟨x, xs', hx⟩ := List.exists_cons_of_length_pos
    (show 0 < (xs.drop i).length by rw [List.length_drop]; omega)
  obtain ⟨y, ys', hy⟩ := List.exists_cons_of_length_pos
    (show 0 < (ys.drop j).length by rw [List.length_drop]; omega)
  obtain rfl : left = x :: xs' := ht.left.trans hx
  obtain rfl : right = y :: ys' := ht.right.trans hy
  rw [Heads.take, yields_bind]
  refine hask (hpx x (List.mem_of_mem_drop (by rw [hx]; simp)))
    (hpy y (List.mem_of_mem_drop (by rw [hy]; simp))) ?_
  cases h : rf x y with
  | true => exact ⟨i, j + 1, by omega, ht.take_right hm hxs hys hx hy h⟩
  | false => exact ⟨i + 1, j, by omega, ht.take_left hm hxs hys hx hy h⟩

end Ends

section Both

variable {xs ys : List α}

/-- Both ends after they have taken `k` elements each. -/
def TakenEnds (before : α → α → Bool) (xs ys : List α) (k : Nat) (ends : Heads α × Heads α) :
    Prop :=
  (∃ i j, i + j = k ∧
    Taken (fun x y => before y x = false) (fun x y => before y x) xs ys i j ends.1) ∧
  ∃ p q, p + q = k ∧
    Taken (fun x y => before x y = false) (fun x y => !before y x) xs.reverse ys.reverse p q ends.2

theorem yields_takeEnds (hw : WeakOrder before) (hpx : ∀ x ∈ xs, P x) (hpy : ∀ y ∈ ys, P y)
    (hox : Ordered before xs) (hoy : Ordered before ys) (hlen : xs.length ≤ ys.length) :
    ∀ n k front back, k + n ≤ xs.length → TakenEnds before xs ys k (front, back) →
      (takeEnds n front back).Yields before P (TakenEnds before xs ys (k + n)) := by
  intro n
  induction n with
  | zero => intro k front back _ h; exact yields_pure.mpr h
  | succ n ih =>
    intro k front back hk h
    obtain ⟨⟨i, j, hij, hf⟩, p, q, hpq, hb⟩ := h
    rw [takeEnds, yields_bind]
    refine (yields_take (merges_up hw) answers_up hpx hpy hox hoy hf (by omega) (by omega)).mono ?_
    rintro front' ⟨i', j', hij', hf'⟩
    rw [yields_bind]
    refine (yields_take (merges_down hw) answers_down (by simpa using hpx) (by simpa using hpy)
      (descends_reverse.mpr hox) (descends_reverse.mpr hoy) hb (by rw [List.length_reverse]; omega)
      (by rw [List.length_reverse]; omega)).mono ?_
    rintro back' ⟨p', q', hpq', hb'⟩
    have := ih (k + 1) front' back' (by omega)
      ⟨⟨i', j', by omega, hf'⟩, p', q', by omega, hb'⟩
    rwa [show k + 1 + n = k + (n + 1) by omega] at this

/-- What the end at the back has left is a cut as seen from the front. -/
theorem cut_of_reverse {p q : Nat}
    (h : Cut (fun x y => !before y x) xs.reverse ys.reverse p q) :
    Cut (fun x y => before y x) xs ys (xs.length - p) (ys.length - q) := by
  refine ⟨?_, ?_⟩
  · intro x hx y hy
    have := h.right y (by rw [List.take_reverse]; simpa using hy) x
      (by rw [List.drop_reverse]; simpa using hx)
    simpa using this
  · intro y hy x hx
    have := h.left x (by rw [List.take_reverse]; simpa using hx) y
      (by rw [List.drop_reverse]; simpa using hy)
    simpa using this

theorem mem_take_drop {i i' : Nat} (h : i' < i) (hi : i ≤ xs.length) :
    ∃ x, x ∈ xs.take i ∧ x ∈ xs.drop i' := by
  refine ⟨xs[i'], ?_, ?_⟩
  · exact List.mem_take_iff_getElem.mpr ⟨i', by omega, rfl⟩
  · exact List.mem_drop_iff_getElem.mpr ⟨0, by omega, by simp⟩

/-- Of two cuts the one further to the left is so in both lists. -/
theorem cut_nested {rf : α → α → Bool} {i j i' j' : Nat} (h : Cut rf xs ys i j)
    (h' : Cut rf xs ys i' j') (hle : i + j ≤ i' + j') (hi : i ≤ xs.length) (hj : j ≤ ys.length)
    (hi' : i' ≤ xs.length) (hj' : j' ≤ ys.length) : i ≤ i' ∧ j ≤ j' := by
  constructor
  · by_contra hlt
    obtain ⟨x, hx, hx'⟩ := @mem_take_drop _ xs i i' (by omega) hi
    obtain ⟨y, hy, hy'⟩ := @mem_take_drop _ ys j' j (by omega) hj'
    have := h.left x hx y hy'
    rw [h'.right y hy x hx'] at this
    cases this
  · by_contra hlt
    obtain ⟨x, hx, hx'⟩ := @mem_take_drop _ xs i' i (by omega) hi'
    obtain ⟨y, hy, hy'⟩ := @mem_take_drop _ ys j j' (by omega) hj
    have := h.right y hy x hx'
    rw [h'.left x hx y hy'] at this
    cases this

theorem take_middle_drop {i i' : Nat} (h : i ≤ i') :
    xs.take i ++ (xs.drop i).take (i' - i) ++ xs.drop i' = xs := by
  have hd : xs.drop i' = (xs.drop i).drop (i' - i) := by
    rw [List.drop_drop]; congr 1; omega
  rw [hd, List.append_assoc, List.take_append_drop, List.take_append_drop]

/-- What the end at the back has taken, as it is seen from the front. -/
structure TakenBack (before : α → α → Bool) (xs ys : List α) (i j : Nat) (taken : List α) :
    Prop where
  perm : taken.Perm (xs.drop i ++ ys.drop j)
  ordered : Ordered before taken
  left : ∀ z ∈ taken, ∀ x ∈ xs.take i, before z x = false
  right : ∀ z ∈ taken, ∀ y ∈ ys.take j, before z y = false

theorem Taken.back (hw : WeakOrder before) (hox : Ordered before xs) (hoy : Ordered before ys)
    {p q : Nat} {back : Heads α}
    (hb : Taken (fun x y => before x y = false) (fun x y => !before y x) xs.reverse ys.reverse p q
      back) : TakenBack before xs ys (xs.length - p) (ys.length - q) back.taken := by
  refine ⟨hb.perm.trans (List.Perm.append ?_ ?_), ordered_reverse.mp hb.ordered |>.imp id, ?_, ?_⟩
  · rw [List.take_reverse]
    exact List.reverse_perm _
  · rw [List.take_reverse]
    exact List.reverse_perm _
  · intro z hz x hx
    exact hb.le_left (merges_down hw) (descends_reverse.mpr hox) z hz x
      (by rw [List.drop_reverse]; simpa using hx)
  · intro z hz y hy
    exact hb.le_right (merges_down hw) (descends_reverse.mpr hoy) z hz y
      (by rw [List.drop_reverse]; simpa using hy)

section Between

variable {i j i' j' : Nat} {front : Heads α} {taken : List α}
  (hf : Taken (fun x y => before y x = false) (fun x y => before y x) xs ys i j front)
  (hb : TakenBack before xs ys i' j' taken) (hi : i ≤ i') (hj : j ≤ j')
include hf hb hi hj

/-- Both ends and what lies between them are all elements. -/
theorem perm_between :
    (front.taken.reverse ++ (xs.drop i).take (i' - i) ++ (ys.drop j).take (j' - j) ++ taken).Perm
      (xs ++ ys) := by
  classical
  rw [List.perm_iff_count]
  intro a
  have hx := congrArg (List.count a) (@take_middle_drop _ xs _ _ hi)
  have hy := congrArg (List.count a) (@take_middle_drop _ ys _ _ hj)
  have hft := hf.perm.count_eq a
  have hbt := hb.perm.count_eq a
  simp only [List.count_append, List.count_reverse] at hx hy hft hbt ⊢
  omega

/-- Where one element at most lies between them, all are in order. -/
theorem ordered_between (hw : WeakOrder before) (hox : Ordered before xs) (hoy : Ordered before ys)
    (hlen : i' - i + (j' - j) ≤ 1) :
    Ordered before
      (front.taken.reverse ++ (xs.drop i).take (i' - i) ++ (ys.drop j).take (j' - j) ++ taken) := by
  have hmid : Ordered before ((xs.drop i).take (i' - i) ++ (ys.drop j).take (j' - j)) := by
    rcases Nat.eq_zero_or_pos (i' - i) with h0 | h0
    · simpa [h0, Ordered] using List.Pairwise.take (List.Pairwise.drop hoy)
    · simpa [show j' - j = 0 by omega, Ordered] using List.Pairwise.take (List.Pairwise.drop hox)
  have hsub {zs : List α} {k k' : Nat} (h : k ≤ k') {z : α} (hz : z ∈ (zs.drop k).take (k' - k)) :
      z ∈ zs.take k' := by
    rw [List.take_drop, show k + (k' - k) = k' by omega] at hz
    exact List.mem_of_mem_drop hz
  simp only [Ordered, List.pairwise_append, List.mem_append, List.mem_reverse] at hmid ⊢
  refine ⟨⟨⟨hf.ordered, hmid.1, ?_⟩, hmid.2.1, ?_⟩, hb.ordered, ?_⟩
  · intro z hz x hx
    exact hf.le_left (merges_up hw) hox z hz x (List.mem_of_mem_take hx)
  · rintro z (hz | hz) y hy
    · exact hf.le_right (merges_up hw) hoy z hz y (List.mem_of_mem_take hy)
    · exact hmid.2.2 z hz y hy
  · rintro z ((hz | hz) | hz) w hwt
    · rcases List.mem_append.mp (hf.perm.mem_iff.mp hz) with hz | hz
      · exact hb.left w hwt z (List.take_subset_take_left xs hi hz)
      · exact hb.right w hwt z (List.take_subset_take_left ys hj hz)
    · exact hb.left w hwt z (hsub hi hz)
    · exact hb.right w hwt z (hsub hj hz)

end Between

theorem yields_mergeEnds (hw : WeakOrder before) (hpx : ∀ x ∈ xs, P x) (hpy : ∀ y ∈ ys, P y)
    (hox : Ordered before xs) (hoy : Ordered before ys) (hlen : xs.length ≤ ys.length)
    (hlen' : ys.length ≤ xs.length + 1) :
    (mergeEnds xs ys).Yields before P (Sorts before (xs ++ ys)) := by
  rw [mergeEnds, yields_bind]
  refine (yields_takeEnds hw hpx hpy hox hoy hlen xs.length 0 _ _ (by omega)
    ⟨⟨0, 0, rfl, taken_start ..⟩, 0, 0, rfl, taken_start ..⟩).mono ?_
  rintro ⟨front, back⟩ ⟨⟨i, j, hij, hf⟩, p, q, hpq, hb⟩
  obtain ⟨hi, hj⟩ := cut_nested hf.cut (cut_of_reverse hb.cut) (by omega) (by omega) (by omega)
    (by omega) (by omega)
  have hleft : front.left.take (front.left.length + back.left.length - xs.length) =
      (xs.drop i).take (xs.length - p - i) := by
    rw [hf.left, hb.left, List.length_drop, List.length_drop, List.length_reverse]
    congr 1
    omega
  have hright : front.right.take (front.right.length + back.right.length - ys.length) =
      (ys.drop j).take (ys.length - q - j) := by
    rw [hf.right, hb.right, List.length_drop, List.length_drop, List.length_reverse]
    congr 1
    omega
  have hback := hb.back hw hox hoy
  refine yields_pure.mpr ?_
  rw [hleft, hright]
  exact ⟨perm_between hf hback hi hj, ordered_between hf hback hi hj hw hox hoy (by omega)⟩

end Both

end DynVal.Sorting
