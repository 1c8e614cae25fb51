import DynVal.Proofs.Sorting.Runs
import DynVal.Proofs.Sorting.Short
import DynVal.Sorting

/-!
# Sorting puts a list in order

* `yields_pivotPlace`: a pivot is an element of the list.
* `yields_sortByPivots`: splitting at pivots orders a list, however few splits are allowed. Where a
  lower bound is given, no element comes before it.
* `yields_sort`: the sort that the library uses orders any list, and compares elements of the list
  only.
-/

namespace DynVal.Sorting

open Comparing

variable {α : Type} {before : α → α → Bool} {P : α → Prop}

/-! ## Run lengths -/

theorem nearRoot_pos {n : Nat} (hn : 4096 < n) : 0 < nearRoot n := by
  have hlog : 12 ≤ n.log2 := (Nat.le_log2 (by omega)).mpr (by omega)
  have hhalf : 2 ^ 6 ≤ 2 ^ ((n.log2 + 1) / 2) := Nat.pow_le_pow_right (by omega) (by omega)
  simp only [nearRoot, Nat.shiftLeft_eq, Nat.one_mul]
  generalize n >>> ((n.log2 + 1) / 2) = rest
  omega

theorem goodLength_pos {n : Nat} (hn : 0 < n) : 0 < goodLength n := by
  unfold goodLength
  split
  · omega
  · exact nearRoot_pos (by omega)

/-! ## Runs that are sorted at once -/

theorem cuts_cutSorted (hw : WeakOrder before) (grain : Grain) :
    Cuts before P False (cutSorted grain) := by
  intro xs hne hxs
  rw [cutSorted, yields_bind]
  refine (yields_sortShort hw grain fun x hx => hxs x (List.mem_of_mem_take hx)).mono ?_
  intro ys hys
  have hlen : ys.length = min shortLimit xs.length := by
    rw [hys.length_eq, List.length_take]
  have hpos : 0 < xs.length := List.length_pos_iff.mpr hne
  refine yields_pure.mpr ⟨?_, hys.ordered, ?_⟩
  · show 0 < ys.length
    rw [hlen, shortLimit]
    omega
  · show ys.Perm (xs.take ys.length)
    rw [hlen, ← List.take_eq_take_min]
    exact hys.perm

theorem yields_sortBySortedRuns (hw : WeakOrder before) (grain : Grain) {xs : List α}
    (hpos : 0 < xs.length) (hxs : ∀ x ∈ xs, P x) :
    (sortBySortedRuns grain xs).Yields before P (Sorts before xs) :=
  @yields_sortByRuns _ _ _ False _ (fun h => h.elim) hw _
    (cuts_nextRun hw (goodLength_pos hpos) (cuts_cutSorted hw grain)) _
    (List.length_pos_iff.mp hpos) hxs

/-! ## Pivots -/

theorem yields_median {element : Nat → α} {n a b c : Nat} (hP : ∀ i < n, P (element i))
    (ha : a < n) (hb : b < n) (hc : c < n) :
    (median element a b c).Yields before P (· < n) := by
  rw [median, yields_bind, yields_less]
  refine ⟨hP a ha, hP b hb, ?_⟩
  rw [yields_bind, yields_less]
  refine ⟨hP a ha, hP c hc, ?_⟩
  split
  · rw [yields_bind, yields_less]
    refine ⟨hP b hb, hP c hc, yields_pure.mpr ?_⟩
    split
    · exact hb
    · exact hc
  · exact yields_pure.mpr ha

/-- The three stretches lie within the first `n` places, and so do the smaller ones in them. -/
theorem yields_spreadMedian {element : Nat → α} {n : Nat} (hP : ∀ i < n, P (element i))
    (a b c stretch : Nat) :
    0 < stretch → a + stretch ≤ n → b + stretch ≤ n → c + stretch ≤ n →
      (spreadMedian element a b c stretch).Yields before P (· < n) := by
  induction a, b, c, stretch using spreadMedian.induct with
  | case1 a b c stretch h k iha ihb ihc =>
    intro _ ha hb hc
    rw [spreadMedian, if_pos h, yields_bind]
    refine (iha ?_ ?_ ?_ ?_).mono ?_ <;> try omega
    intro a' ha'
    rw [yields_bind]
    refine (ihb ?_ ?_ ?_ ?_).mono ?_ <;> try omega
    intro b' hb'
    rw [yields_bind]
    refine (ihc ?_ ?_ ?_ ?_).mono ?_ <;> try omega
    intro c' hc'
    exact yields_median hP ha' hb' hc'
  | case2 a b c stretch h =>
    intro hpos ha hb hc
    rw [spreadMedian, if_neg h]
    exact yields_median hP (by omega) (by omega) (by omega)

theorem yields_pivotPlace {xs : Array α} {default : α} (hlen : 8 ≤ xs.size)
    (hP : ∀ x ∈ xs, P x) : (pivotPlace xs default).Yields before P (· < xs.size) := by
  refine yields_spreadMedian (n := xs.size) ?_ _ _ _ _ (by omega) (by omega) (by omega) (by omega)
  intro i hi
  rw [Array.getD_eq_getD_getElem?, Array.getElem?_eq_getElem hi]
  exact hP _ (Array.getElem_mem hi)

/-! ## Splitting -/

/-- A list is parted by the answers to a question. -/
theorem yields_part {test : α → Bool} {goesLeft : α → Comparing α Bool}
    (hask : ∀ x (Q : Bool → Prop), P x → Q (test x) → (goesLeft x).Yields before P Q) :
    ∀ (xs left right : List α), (∀ x ∈ xs, P x) →
      (part goesLeft left right xs).Yields before P fun parts =>
        parts.1 = (xs.filter test).reverse ++ left ∧
          parts.2 = (xs.filter fun x => !test x).reverse ++ right := by
  intro xs
  induction xs with
  | nil => intro left right _; exact yields_pure.mpr ⟨rfl, rfl⟩
  | cons x xs ih =>
    intro left right hP
    rw [part, yields_bind]
    refine hask x _ (hP x (by simp)) ?_
    have hxs : ∀ y ∈ xs, P y := fun y hy => hP y (by simp [hy])
    cases h : test x with
    | true => exact (ih (x :: left) right hxs).mono fun parts hp => by simpa [h] using hp
    | false => exact (ih left (x :: right) hxs).mono fun parts hp => by simpa [h] using hp

/-- Two lists of all elements, told apart by a test. -/
structure Parts (test : α → Bool) (xs : List α) (parts : List α × List α) : Prop where
  perm : (parts.1 ++ parts.2).Perm xs
  left : ∀ x ∈ parts.1, test x = true
  right : ∀ x ∈ parts.2, test x = false

/-- What stands on both sides of some elements whose part is known is parted. -/
theorem yields_partAround {test : α → Bool} {goesLeft : α → Comparing α Bool}
    (hask : ∀ x (Q : Bool → Prop), P x → Q (test x) → (goesLeft x).Yields before P Q)
    {front back lefts rights : List α} (hfront : ∀ x ∈ front, P x) (hback : ∀ x ∈ back, P x)
    (hlefts : ∀ x ∈ lefts, test x = true) (hrights : ∀ x ∈ rights, test x = false) :
    (do
      let (left, right) ← part goesLeft [] [] front
      let (left, right) ← part goesLeft (lefts ++ left) (rights ++ right) back
      return (left.reverse, right.reverse)).Yields before P
        (Parts test (front ++ (lefts ++ rights) ++ back)) := by
  rw [yields_bind]
  refine (yields_part hask front [] [] hfront).mono ?_
  rintro ⟨left, right⟩ ⟨hl, hr⟩
  rw [yields_bind]
  refine (yields_part hask back _ _ hback).mono ?_
  rintro ⟨left', right'⟩ ⟨hl', hr'⟩
  simp only [List.append_nil] at hl hr hl' hr'
  refine yields_pure.mpr ?_
  rw [hl', hr', hl, hr]
  refine ⟨?_, ?_, ?_⟩
  · have hf := List.filter_append_perm test front
    have hb := List.filter_append_perm test back
    classical
    rw [List.perm_iff_count] at hf hb ⊢
    intro a
    have hfa := hf a
    have hba := hb a
    simp only [List.reverse_append, List.reverse_reverse, List.count_append, List.count_reverse]
      at hfa hba ⊢
    omega
  · intro x hx
    simp only [List.mem_reverse, List.mem_append, List.mem_filter] at hx
    rcases hx with ⟨_, h⟩ | h | ⟨_, h⟩
    · exact h
    · exact hlefts x h
    · exact h
  · intro x hx
    simp only [List.mem_reverse, List.mem_append, List.mem_filter, Bool.not_eq_true'] at hx
    rcases hx with ⟨_, h⟩ | h | ⟨_, h⟩
    · exact h
    · exact hrights x h
    · exact h

theorem yields_splitBefore (hw : WeakOrder before) {front back : List α} {pivot : α}
    (hP : ∀ x ∈ front ++ pivot :: back, P x) :
    (splitBefore front pivot back).Yields before P
      (Parts (fun x => before x pivot) (front ++ pivot :: back)) := by
  have h := @yields_partAround _ before P (fun x => before x pivot) (fun x => less x pivot)
    (fun x _ hx hq => yields_less.mpr ⟨hx, hP pivot (by simp), hq⟩) front back [] [pivot]
    (fun x hx => hP x (by simp [hx])) (fun x hx => hP x (by simp [hx])) (by simp)
    (by simpa using hw.irrefl pivot)
  rw [List.append_assoc] at h
  exact h

theorem yields_splitAfter (hw : WeakOrder before) {front back : List α} {pivot : α}
    (hP : ∀ x ∈ front ++ pivot :: back, P x) :
    (splitAfter front pivot back).Yields before P
      (Parts (fun x => !before pivot x) (front ++ pivot :: back)) := by
  have h := @yields_partAround _ before P (fun x => !before pivot x) (fun x => notLess pivot x)
    (fun x _ hx hq => yields_notLess.mpr ⟨hP pivot (by simp), hx, hq⟩) front back [pivot] []
    (fun x hx => hP x (by simp [hx])) (fun x hx => hP x (by simp [hx]))
    (by simpa using hw.irrefl pivot) (by simp)
  rw [List.append_assoc] at h
  exact h

theorem ordered_append {xs ys : List α} (hx : Ordered before xs) (hy : Ordered before ys)
    (h : ∀ x ∈ xs, ∀ y ∈ ys, before y x = false) : Ordered before (xs ++ ys) :=
  List.pairwise_append.mpr ⟨hx, hy, h⟩

/-- Elements that a least element does not come before are in order as they stand. -/
theorem ordered_of_least (hw : WeakOrder before) {xs : List α} {pivot : α}
    (hleast : ∀ x ∈ xs, before x pivot = false) (h : ∀ x ∈ xs, before pivot x = false) :
    Ordered before xs :=
  List.pairwise_iff_forall_sublist.mpr fun {x y} hs =>
    hw.trans (h x (hs.subset (by simp))) (hleast y (hs.subset (by simp)))

theorem take_getD_drop {xs : List α} {i : Nat} (x : α) (hi : i < xs.length) :
    xs.take i ++ xs.toArray.getD i x :: xs.drop (i + 1) = xs := by
  rw [Array.getD_eq_getD_getElem?, List.getElem?_toArray, List.getElem?_eq_getElem hi,
    Option.getD_some, ← List.drop_eq_getElem_cons, List.take_append_drop]

/-- No element comes before the bound, which may be asked about. -/
def Bounds (before : α → α → Bool) (P : α → Prop) (xs : List α) (least : Option α) : Prop :=
  ∀ l ∈ least, P l ∧ ∀ x ∈ xs, before x l = false

section Around

variable {grain : Grain} {allowance : Nat} {front back left right lefts rights : List α} {pivot : α}
  {least : Option α}

/-- Elements before a pivot are followed by those that are not, each side in order. -/
theorem Parts.sorts_before (hw : WeakOrder before) {xs : List α}
    (hp : Parts (fun x => before x pivot) xs (left, right)) (hl : Sorts before left lefts)
    (hr : Sorts before right rights) : Sorts before xs (lefts ++ rights) := by
  refine ⟨(hl.perm.append hr.perm).trans hp.perm, ordered_append hl.ordered hr.ordered ?_⟩
  intro x hx y hy
  have hx : before x pivot = true := hp.left x (hl.mem_iff.mp hx)
  have hy : before y pivot = false := hp.right y (hr.mem_iff.mp hy)
  exact hw.asymm (hw.lt_of_lt_of_le hx hy)

/-- Elements that a least pivot does not come before are in order and stay where they are. -/
theorem Parts.sorts_after (hw : WeakOrder before) {xs : List α}
    (hp : Parts (fun x => !before pivot x) xs (left, right))
    (hmin : ∀ x ∈ xs, before x pivot = false) (hr : Sorts before right rights) :
    Sorts before xs (left ++ rights) := by
  have hleft : ∀ x ∈ left, before pivot x = false := fun x hx => by simpa using hp.left x hx
  have hleast : ∀ x ∈ left, before x pivot = false :=
    fun x hx => hmin x (hp.perm.mem_iff.mp (List.mem_append_left right hx))
  refine ⟨(hr.perm.append_left left).trans hp.perm,
    ordered_append (ordered_of_least hw hleast hleft) hr.ordered ?_⟩
  intro x hx y hy
  have hy : before pivot y = true := by simpa using hp.right y (hr.mem_iff.mp hy)
  exact hw.trans (hleft x hx) (hw.asymm hy)

/-- Splitting at pivots orders every list when so many splits are allowed. -/
def PivotsSort (before : α → α → Bool) (P : α → Prop) (grain : Grain) (allowance : Nat) : Prop :=
  ∀ (least : Option α) (xs : List α), (∀ x ∈ xs, P x) → Bounds before P xs least →
    (sortByPivots grain allowance least xs).Yields before P (Sorts before xs)

/-- A pivot before which nothing comes is put first, with all that are not greater. -/
theorem yields_sortAfter (hw : WeakOrder before) (ih : PivotsSort before P grain allowance)
    (hP : ∀ x ∈ front ++ pivot :: back, P x)
    (hmin : ∀ x ∈ front ++ pivot :: back, before x pivot = false) :
    (do
      let (equal, right) ← splitAfter front pivot back
      return equal ++ (← sortByPivots grain allowance none right)).Yields before P
        (Sorts before (front ++ pivot :: back)) := by
  rw [yields_bind]
  refine (yields_splitAfter hw hP).mono ?_
  rintro ⟨equal, right⟩ hp
  have hright : ∀ x ∈ right, P x :=
    fun x hx => hP x (hp.perm.mem_iff.mp (List.mem_append_right equal hx))
  rw [yields_bind]
  refine (ih none right hright nofun).mono ?_
  intro rights hr
  exact yields_pure.mpr (hp.sorts_after hw hmin hr)

/-- A part with elements before the pivot and one without are put in order by themselves. -/
theorem yields_sortSides (hw : WeakOrder before) (ih : PivotsSort before P grain allowance)
    (hP : ∀ x ∈ front ++ pivot :: back, P x)
    (hleast : Bounds before P (front ++ pivot :: back) least)
    (hp : Parts (fun x => before x pivot) (front ++ pivot :: back) (left, right)) :
    (do
      let right ← sortByPivots grain allowance (some pivot) right
      let left ← sortByPivots grain allowance least left
      return left ++ right).Yields before P (Sorts before (front ++ pivot :: back)) := by
  have hleft : left ⊆ front ++ pivot :: back :=
    fun x hx => hp.perm.mem_iff.mp (List.mem_append_left right hx)
  have hright : right ⊆ front ++ pivot :: back :=
    fun x hx => hp.perm.mem_iff.mp (List.mem_append_right left hx)
  have hpivot : Bounds before P right (some pivot) := by
    rintro l ⟨⟩
    exact ⟨hP pivot (by simp), hp.right⟩
  rw [yields_bind]
  refine (ih (some pivot) right (fun x hx => hP x (hright hx)) hpivot).mono ?_
  intro rights hr
  have hbound : Bounds before P left least :=
    fun l hl => ⟨(hleast l hl).1, fun x hx => (hleast l hl).2 x (hleft hx)⟩
  rw [yields_bind]
  refine (ih least left (fun x hx => hP x (hleft hx)) hbound).mono ?_
  intro lefts hl
  exact yields_pure.mpr (hp.sorts_before hw hl hr)

/-- Where the bound does not come before the pivot, nothing does and only the greater elements are
still to be sorted. -/
theorem yields_sortAround (hw : WeakOrder before) (ih : PivotsSort before P grain allowance)
    (hP : ∀ x ∈ front ++ pivot :: back, P x)
    (hleast : Bounds before P (front ++ pivot :: back) least)
    (isLeast : Bool) (h : isLeast = true → ∃ l ∈ least, before l pivot = false) :
    (do
      let (left, right) ←
        if isLeast then pure ([], []) else splitBefore front pivot back
      if left.isEmpty then
        let (equal, right) ← splitAfter front pivot back
        return equal ++ (← sortByPivots grain allowance none right)
      else
        let right ← sortByPivots grain allowance (some pivot) right
        let left ← sortByPivots grain allowance least left
        return left ++ right).Yields before P (Sorts before (front ++ pivot :: back)) := by
  cases isLeast with
  | true =>
    obtain ⟨l, hl, hlp⟩ := h rfl
    exact yields_sortAfter hw ih hP fun x hx => hw.trans hlp ((hleast l hl).2 x hx)
  | false =>
    show (splitBefore front pivot back >>= _).Yields before P _
    rw [yields_bind]
    refine (yields_splitBefore hw hP).mono ?_
    rintro ⟨left, right⟩ hp
    cases left with
    | nil =>
      exact yields_sortAfter hw ih hP fun x hx => hp.right x (by simpa using hp.perm.mem_iff.mpr hx)
    | cons x left => exact yields_sortSides hw ih hP hleast hp

end Around

theorem yields_sortByPivots (hw : WeakOrder before) (grain : Grain) :
    ∀ allowance, PivotsSort before P grain allowance := by
  intro allowance
  induction allowance with
  | zero =>
    intro least xs hxs _
    rw [sortByPivots]
    split
    · exact yields_sortShort hw grain hxs
    · exact yields_sortBySortedRuns hw grain (by omega) hxs
  | succ allowance ih =>
    intro least xs hxs hleast
    match xs with
    | [] => exact yields_pure.mpr ⟨.refl _, .nil⟩
    | x :: xs =>
      rw [sortByPivots]
      split
      · exact yields_sortShort hw grain hxs
      rename_i hlen
      generalize hall : x :: xs = all at hxs hleast hlen
      rw [yields_bind]
      refine (yields_pivotPlace (by simp only [shortLimit] at hlen; simp; omega)
        (by simpa using hxs)).mono ?_
      intro place hplace
      have hcut := take_getD_drop x (by simpa using hplace)
      generalize all.toArray.getD place x = pivot at hcut
      generalize all.take place = front at hcut
      generalize all.drop (place + 1) = back at hcut
      subst hcut
      cases least with
      | none => exact yields_sortAround hw ih hxs hleast false nofun
      | some l =>
        refine ⟨(hleast l rfl).1, hxs pivot (by simp), ?_⟩
        exact yields_sortAround hw ih hxs hleast _ fun h => ⟨l, rfl, by simpa using h⟩

/-! ## Long lists -/

theorem yields_sortLoose (hw : WeakOrder before) (grain : Grain) {xs : List α}
    (hxs : ∀ x ∈ xs, P x) : (sortLoose grain xs).Yields before P (Sorts before xs) :=
  yields_sortByPivots hw grain _ none xs hxs nofun

theorem cuts_cutLoose {good : Nat} (hgood : 0 < good) :
    Cuts before P True (cutLoose good) := by
  intro xs hne _
  have hpos : 0 < xs.length := List.length_pos_iff.mpr hne
  refine yields_pure.mpr ⟨?_, trivial, ?_⟩
  · show 0 < (xs.take good).length
    rw [List.length_take]
    omega
  · show (xs.take good).Perm (xs.take (xs.take good).length)
    rw [List.length_take, ← List.take_eq_take_min]

theorem yields_sortLong (hw : WeakOrder before) (grain : Grain) {xs : List α}
    (hpos : 0 < xs.length) (hxs : ∀ x ∈ xs, P x) :
    (sortLong grain xs).Yields before P (Sorts before xs) := by
  unfold sortLong
  split
  · exact yields_sortBySortedRuns hw grain hpos hxs
  · have hgood := goodLength_pos hpos
    exact @yields_sortByRuns _ _ _ True _ (fun _ ys hys => yields_sortLoose hw grain hys) hw _
      (cuts_nextRun hw hgood (cuts_cutLoose hgood)) _ (List.length_pos_iff.mp hpos) hxs

theorem yields_sort (hw : WeakOrder before) (grain : Grain) {xs : List α}
    (hxs : ∀ x ∈ xs, P x) : (sort grain xs).Yields before P (Sorts before xs) := by
  unfold sort
  split
  · exact yields_insertAll hw (by simp) hxs .nil
  · rename_i h
    exact yields_sortLong hw grain (by simp only [insertionLimit] at h; omega) hxs

end DynVal.Sorting
