import DynVal.Proofs.Sorting.Merge
import DynVal.Sorting.Short

/-!
# Short lists are put in order

* `yields_sortFour`: five comparisons order four elements.
* `yields_sortShort`: a short list is ordered, whichever blocks its halves start from.
-/

namespace DynVal.Sorting

open Comparing

variable {α : Type} {before : α → α → Bool} {P : α → Prop}

theorem sorts_of_length_le_one {xs : List α} (h : xs.length ≤ 1) : Sorts before xs xs := by
  refine ⟨.refl _, ?_⟩
  match xs, h with
  | [], _ => exact .nil
  | [x], _ => exact List.pairwise_singleton ..

/-- The last question of `sortFour`, about the two elements in the middle. -/
theorem yields_middle (hw : WeakOrder before) {a x y z : α} (hx : P x) (hy : P y)
    (hax : before x a = false) (hay : before y a = false) (hxz : before z x = false)
    (hyz : before z y = false) {xs : List α} (hp : [a, x, y, z].Perm xs) :
    (do if ← less y x then return [a, y, x, z] else return [a, x, y, z] :
      Comparing α (List α)).Yields before P (Sorts before xs) := by
  have haz : before z a = false := hw.trans hax hxz
  rw [yields_bind, yields_less]
  refine ⟨hy, hx, ?_⟩
  cases h : before y x with
  | true =>
    have hswap : [a, y, x, z].Perm [a, x, y, z] := (List.Perm.swap x y [z]).cons a
    exact ⟨hswap.trans hp, by simp [Ordered, hax, hay, haz, hxz, hyz, hw.asymm h]⟩
  | false => exact ⟨hp, by simp [Ordered, hax, hay, haz, hxz, hyz, h]⟩

/-- Four elements of which the first two and the last two are in order. -/
theorem yields_sortPairs (hw : WeakOrder before) {a b c d : α} (ha : P a) (hb : P b) (hc : P c)
    (hd : P d) (hab : before b a = false) (hcd : before d c = false) :
    (do
      let cFirst ← less c a
      let bLast ← less d b
      let first := if cFirst then c else a
      let last := if bLast then b else d
      let x := if cFirst then a else if bLast then c else b
      let y := if bLast then d else if cFirst then b else c
      if ← less y x then return [first, y, x, last] else return [first, x, y, last] :
      Comparing α (List α)).Yields before P (Sorts before [a, b, c, d]) := by
  rw [yields_bind, yields_less]
  refine ⟨hc, ha, ?_⟩
  rw [yields_bind, yields_less]
  refine ⟨hd, hb, ?_⟩
  cases hca : before c a with
  | true =>
    have hca' := hw.asymm hca
    cases hdb : before d b with
    | true =>
      have hdb' := hw.asymm hdb
      refine yields_middle hw ha hd hca' hcd hab hdb' ?_
      exact (@List.perm_append_comm _ [c] [a]).append_right [d, b] |>.trans
        ((@List.perm_append_comm _ [c, d] [b]).cons a)
    | false =>
      refine yields_middle hw ha hb hca' (hw.trans hca' hab) (hw.trans hab hdb) hdb ?_
      exact (@List.perm_append_comm _ [c] [a, b]).append_right [d]
  | false =>
    cases hdb : before d b with
    | true =>
      have hdb' := hw.asymm hdb
      refine yields_middle hw hc hd hca (hw.trans hca hcd) (hw.trans hcd hdb') hdb' ?_
      exact (@List.perm_append_comm _ [c, d] [b]).cons a
    | false =>
      exact yields_middle hw hb hc hab hca hdb hcd (.refl _)

theorem yields_sortFour (hw : WeakOrder before) {p q r s : α} (hp : P p) (hq : P q) (hr : P r)
    (hs : P s) : (sortFour p q r s).Yields before P (Sorts before [p, q, r, s]) := by
  rw [sortFour, yields_bind, yields_less]
  refine ⟨hq, hp, ?_⟩
  obtain ⟨a, b, hab, ha, hb, he, hpq⟩ : ∃ a b, before b a = false ∧ P a ∧ P b ∧
      (if before q p then (q, p) else (p, q)) = (a, b) ∧ [a, b].Perm [p, q] := by
    cases h : before q p with
    | true => exact ⟨q, p, hw.asymm h, hq, hp, rfl, .swap ..⟩
    | false => exact ⟨p, q, h, hp, hq, rfl, .refl _⟩
  rw [he, yields_bind, yields_less]
  refine ⟨hs, hr, ?_⟩
  obtain ⟨c, d, hcd, hc, hd, he, hrs⟩ : ∃ c d, before d c = false ∧ P c ∧ P d ∧
      (if before s r then (s, r) else (r, s)) = (c, d) ∧ [c, d].Perm [r, s] := by
    cases h : before s r with
    | true => exact ⟨s, r, hw.asymm h, hs, hr, rfl, .swap ..⟩
    | false => exact ⟨r, s, h, hr, hs, rfl, .refl _⟩
  rw [he]
  exact (yields_sortPairs hw ha hb hc hd hab hcd).mono fun _ h => h.of_perm (hpq.append hrs)

theorem yields_sortBlock (hw : WeakOrder before) {xs : List α} (hP : ∀ x ∈ xs, P x)
    (hl : xs.length ≤ 1 ∨ xs.length = 4 ∨ xs.length = 8) :
    (sortBlock xs).Yields before P (Sorts before xs) := by
  unfold sortBlock
  split
  · exact yields_sortFour hw (hP _ (by simp)) (hP _ (by simp)) (hP _ (by simp)) (hP _ (by simp))
  · rename_i p q r s t u v w
    rw [yields_bind]
    refine (yields_sortFour hw (hP p (by simp)) (hP q (by simp)) (hP r (by simp))
      (hP s (by simp))).mono ?_
    intro xs hxs
    rw [yields_bind]
    refine (yields_sortFour hw (hP t (by simp)) (hP u (by simp)) (hP v (by simp))
      (hP w (by simp))).mono ?_
    intro ys hys
    have hx : xs.length = 4 := hxs.length_eq
    have hy : ys.length = 4 := hys.length_eq
    refine (yields_mergeEnds hw ?_ ?_ hxs.ordered hys.ordered (by omega) (by omega)).mono ?_
    · intro x hx
      have := hxs.mem_iff.mp hx
      exact hP x (by simp only [List.mem_cons] at this ⊢; grind)
    · intro y hy
      have := hys.mem_iff.mp hy
      exact hP y (by simp only [List.mem_cons] at this ⊢; grind)
    · intro zs hzs
      exact hzs.of_perm (hxs.perm.append hys.perm)
  · rename_i h4 h8
    rcases hl with hl | hl | hl
    · exact yields_pure.mpr (sorts_of_length_le_one hl)
    · match xs, hl with
      | [p, q, r, s], _ => exact absurd rfl (h4 p q r s)
    · match xs, hl with
      | [p, q, r, s, t, u, v, w], _ => exact absurd rfl (h8 p q r s t u v w)

theorem block_cases (grain : Grain) {n : Nat} (hn : 2 ≤ n) :
    (grain.block n = 1 ∨ grain.block n = 4 ∨ grain.block n = 8) ∧ grain.block n ≤ n / 2 := by
  unfold Grain.block
  split
  · omega
  · cases grain with
    | four => exact ⟨.inr (.inl rfl), by show 4 ≤ n / 2; omega⟩
    | eight =>
      by_cases h : n < 16
      · exact ⟨.inr (.inl (if_pos h)), by rw [if_pos h]; show 4 ≤ n / 2; omega⟩
      · exact ⟨.inr (.inr (if_neg h)), by rw [if_neg h]; show 8 ≤ n / 2; omega⟩

/-- One half of a short list: its block is sorted first, and the rest inserted. -/
theorem yields_half (hw : WeakOrder before) {xs : List α} (hP : ∀ x ∈ xs, P x) {block : Nat}
    {ys : List α} (hys : Sorts before (xs.take block) ys) :
    (insertAll ys (xs.drop block)).Yields before P (Sorts before xs) := by
  refine (yields_insertAll hw ?_ ?_ hys.ordered).mono ?_
  · intro y hy
    exact hP y (List.mem_of_mem_take (hys.mem_iff.mp hy))
  · intro x hx
    exact hP x (List.mem_of_mem_drop hx)
  · intro zs hzs
    exact hzs.of_perm ((hys.perm.append_right _).trans (by rw [List.take_append_drop]))

theorem yields_sortShort (hw : WeakOrder before) (grain : Grain) {xs : List α}
    (hP : ∀ x ∈ xs, P x) : (sortShort grain xs).Yields before P (Sorts before xs) := by
  unfold sortShort
  split
  · exact yields_pure.mpr (sorts_of_length_le_one (by omega))
  · rename_i hlen
    obtain ⟨hblock, hle⟩ := block_cases grain (n := xs.length) (by omega)
    generalize hleft : xs.take (xs.length / 2) = left
    generalize hright : xs.drop (xs.length / 2) = right
    generalize grain.block xs.length = block at hblock hle
    have hll : left.length = xs.length / 2 := by rw [← hleft, List.length_take]; omega
    have hrl : right.length = xs.length - xs.length / 2 := by rw [← hright, List.length_drop]
    have hPl : ∀ x ∈ left, P x := fun x hx => hP x (List.mem_of_mem_take (hleft ▸ hx))
    have hPr : ∀ x ∈ right, P x := fun x hx => hP x (List.mem_of_mem_drop (hright ▸ hx))
    rw [yields_bind]
    refine (yields_sortBlock hw (fun x hx => hPl x (List.mem_of_mem_take hx))
      (by rw [List.length_take]; omega)).mono ?_
    intro ls hls
    rw [yields_bind]
    refine (yields_sortBlock hw (fun x hx => hPr x (List.mem_of_mem_take hx))
      (by rw [List.length_take]; omega)).mono ?_
    intro rs hrs
    rw [yields_bind]
    refine (yields_half hw hPl hls).mono ?_
    intro ls' hls'
    rw [yields_bind]
    refine (yields_half hw hPr hrs).mono ?_
    intro rs' hrs'
    have hl := hls'.length_eq
    have hr := hrs'.length_eq
    refine (yields_mergeEnds hw (fun x hx => hPl x (hls'.mem_iff.mp hx))
      (fun x hx => hPr x (hrs'.mem_iff.mp hx)) hls'.ordered hrs'.ordered (by omega)
      (by omega)).mono ?_
    intro zs hzs
    refine hzs.of_perm ((hls'.perm.append hrs'.perm).trans ?_)
    rw [← hleft, ← hright, List.take_append_drop]

end DynVal.Sorting
