import DynVal.Proofs.Relations.Matching
import Mathlib.Data.List.Pairwise
import Mathlib.Data.Multiset.MapFold

/-!
# Comparisons that are carried over

Where both sides of a comparison are replaced by others, what is said of the new ones may follow
from what was said of the old: what was not above is not above, and what is not told apart was not
told apart before (`Carried`). This passes from the elements of sequences to the sequences, as it
passes through any comparison that is made part by part.

Contents that are sorted first are harder, as the new ones may be sorted in another way. Of two such
contents of one size the first is not above the second if the least element in which they differ is
an element of the first (`LowerIn`), and this says nothing of how either is sorted.
-/

namespace DynVal

open Std

/-- What was not above is not above, and what is equal was equal. -/
def Carried (o o' : Ordering) : Prop := (o.isLE → o'.isLE) ∧ (o' = .eq → o = .eq)

namespace Carried

variable {o o' p p' : Ordering}

theorem refl (o : Ordering) : Carried o o := ⟨id, id⟩

theorem to_lt (o : Ordering) : Carried o .lt := ⟨fun _ => rfl, nofun⟩

theorem lt_of_lt (h : Carried o o') (ho : o = .lt) : o' = .lt := by
  subst ho
  cases o' with
  | lt => rfl
  | eq => cases h.2 rfl
  | gt => cases h.1 rfl

/-- Where the first parts settle nothing the second are looked at. -/
theorem thenBy (h : Carried o o') (hp : o = .eq → Carried p p') :
    Carried (o.then p) (o'.then p') := by
  cases o with
  | lt =>
    obtain rfl := h.lt_of_lt rfl
    exact refl _
  | eq =>
    cases o' with
    | lt => exact to_lt _
    | eq => exact hp rfl
    | gt => cases h.1 rfl
  | gt =>
    cases o' with
    | lt => exact to_lt _
    | eq => cases h.2 rfl
    | gt => exact refl _

end Carried

section Sequences

variable {α β : Type} {cmp : α → α → Ordering} {cmp' : β → β → Ordering}

theorem carried_compareLex {r r' : α → β → Prop} {xs ys : List α} {xs' ys' : List β}
    (hx : List.Forall₂ r xs xs') (hy : List.Forall₂ r' ys ys')
    (h : ∀ x ∈ xs, ∀ y ∈ ys, ∀ x' ∈ xs', ∀ y' ∈ ys', r x x' → r' y y' →
      Carried (cmp x y) (cmp' x' y')) :
    Carried (List.compareLex cmp xs ys) (List.compareLex cmp' xs' ys') := by
  induction hx generalizing ys ys' with
  | nil => cases hy <;> exact .refl _
  | cons hr _ ih =>
    cases hy with
    | nil => exact .refl _
    | cons hr' hys =>
      rw [List.compareLex_cons_cons, List.compareLex_cons_cons]
      refine (h _ List.mem_cons_self _ List.mem_cons_self _ List.mem_cons_self _ List.mem_cons_self
        hr hr').thenBy fun _ => ih hys fun x hx y hy x' hx' y' hy' => ?_
      exact h x (List.mem_cons_of_mem _ hx) y (List.mem_cons_of_mem _ hy) x'
        (List.mem_cons_of_mem _ hx') y' (List.mem_cons_of_mem _ hy')

end Sequences

/-! ## Sorted contents -/

section Sorted

variable {α : Type} {cmp : α → α → Ordering}

/-- Every element of the second either is one of the first or is above one of the first that is none
of the second. -/
def LowerIn (cmp : α → α → Ordering) (xs ys : List α) : Prop :=
  ∀ y ∈ ys, ∃ x ∈ xs, cmp x y = .eq ∨ (cmp x y = .lt ∧ ∀ z ∈ ys, cmp x z ≠ .eq)

variable {xs ys : List α}

theorem LowerIn.perm {xs' ys' : List α} (h : LowerIn cmp xs ys) (hx : xs.Perm xs')
    (hy : ys.Perm ys') : LowerIn cmp xs' ys' := by
  intro y hym
  obtain ⟨x, hxm, hxy⟩ := h y (hy.mem_iff.mpr hym)
  refine ⟨x, hx.mem_iff.mp hxm, hxy.imp_right fun hlt => ⟨hlt.1, fun z hz => ?_⟩⟩
  exact hlt.2 z (hy.mem_iff.mpr hz)

variable [TransCmp cmp]

/-- What is not above the head of a strictly increasing list is below the others. -/
theorem lt_of_isLE_head {x y z : α} (hy : (y :: ys).Pairwise fun x y => cmp x y = .lt)
    (hx : (cmp x y).isLE) (hz : z ∈ ys) : cmp x z = .lt :=
  TransCmp.lt_of_isLE_of_lt hx (List.rel_of_pairwise_cons hy hz)

/-- Heads that are equal make no difference. -/
theorem lowerIn_cons_iff {x y : α} (hxy : cmp x y = .eq)
    (hx : (x :: xs).Pairwise fun x y => cmp x y = .lt)
    (hy : (y :: ys).Pairwise fun x y => cmp x y = .lt) :
    LowerIn cmp (x :: xs) (y :: ys) ↔ LowerIn cmp xs ys := by
  constructor
  · intro h z hz
    obtain ⟨w, hw, hwz⟩ := h z (List.mem_cons_of_mem _ hz)
    rcases List.mem_cons.mp hw with rfl | hw
    · have hlt : cmp w z = .lt := lt_of_isLE_head hy (by rw [hxy]; rfl) hz
      rcases hwz with heq | ⟨-, hne⟩
      · rw [hlt] at heq
        cases heq
      · exact absurd hxy (hne y List.mem_cons_self)
    · refine ⟨w, hw, hwz.imp_right fun hlt => ⟨hlt.1, fun u hu => ?_⟩⟩
      exact hlt.2 u (List.mem_cons_of_mem _ hu)
  · intro h z hz
    rcases List.mem_cons.mp hz with rfl | hz
    · exact ⟨x, List.mem_cons_self, .inl hxy⟩
    · obtain ⟨w, hw, hwz⟩ := h z hz
      refine ⟨w, List.mem_cons_of_mem _ hw, hwz.imp_right fun hlt => ⟨hlt.1, ?_⟩⟩
      refine List.forall_mem_cons.mpr ⟨fun hwy => ?_, hlt.2⟩
      have hyw : cmp y w = .lt := lt_of_isLE_head hx (by rw [OrientedCmp.eq_symm hxy]; rfl) hw
      rw [OrientedCmp.gt_of_lt hyw] at hwy
      cases hwy

/-- Of strictly increasing lists of one length, the first is not above the second if the least
element in which they differ is one of the first. -/
theorem isLE_compareLex_iff (hx : xs.Pairwise fun x y => cmp x y = .lt)
    (hy : ys.Pairwise fun x y => cmp x y = .lt) (hlen : xs.length = ys.length) :
    (List.compareLex cmp xs ys).isLE ↔ LowerIn cmp xs ys := by
  induction xs generalizing ys with
  | nil =>
    obtain rfl : ys = [] := List.length_eq_zero_iff.mp hlen.symm
    exact iff_of_true rfl nofun
  | cons x xs ih =>
    cases ys with
    | nil => cases hlen
    | cons y ys =>
      rw [List.compareLex_cons_cons]
      cases hxy : cmp x y with
      | lt =>
        -- the first head is below all of the second
        have hlt : ∀ z ∈ y :: ys, cmp x z = .lt := List.forall_mem_cons.mpr
          ⟨hxy, fun z hz => lt_of_isLE_head hy (by rw [hxy]; rfl) hz⟩
        exact iff_of_true rfl fun z hz =>
          ⟨x, List.mem_cons_self, .inr ⟨hlt z hz, fun w hw => by simp [hlt w hw]⟩⟩
      | gt =>
        -- the second head is below all of the first
        have hyx : cmp y x = .lt := OrientedCmp.lt_of_gt hxy
        have hlt : ∀ w ∈ x :: xs, cmp y w = .lt := List.forall_mem_cons.mpr
          ⟨hyx, fun w hw => lt_of_isLE_head hx (by rw [hyx]; rfl) hw⟩
        refine iff_of_false (by simp) fun h => ?_
        obtain ⟨w, hw, hwy⟩ := h y List.mem_cons_self
        rw [OrientedCmp.gt_of_lt (hlt w hw)] at hwy
        rcases hwy with hwy | ⟨hwy, -⟩ <;> cases hwy
      | eq =>
        rw [lowerIn_cons_iff hxy hx hy]
        exact ih hx.of_cons hy.of_cons (Nat.succ.inj hlen)

theorem isLE_contentOrder_iff (hx : xs.Pairwise fun x y => cmp x y ≠ .eq)
    (hy : ys.Pairwise fun x y => cmp x y ≠ .eq) (hlen : xs.length = ys.length) :
    (Value.contentOrder cmp xs ys).isLE ↔ LowerIn cmp xs ys := by
  have hpx : (sorted .eight cmp xs).Perm xs := sorted_perm .eight xs
  have hpy : (sorted .eight cmp ys).Perm ys := sorted_perm .eight ys
  rw [Value.contentOrder, hlen, @ReflCmp.compare_self _ (compare (α := Nat)), Ordering.eq_then,
    isLE_compareLex_iff (pairwise_lt_sorted .eight hx) (pairwise_lt_sorted .eight hy)
      (hpx.length_eq.trans (hlen.trans hpy.length_eq.symm))]
  exact ⟨fun h => h.perm hpx hpy, fun h => h.perm hpx.symm hpy.symm⟩

/-- In a list in which no two elements are equal, equal elements are one. -/
theorem eq_of_pairwise_ne {β : Type} {f : β → α} {l : List β}
    (h : l.Pairwise fun a b => cmp (f a) (f b) ≠ .eq) {a b : β} (ha : a ∈ l) (hb : b ∈ l)
    (heq : cmp (f a) (f b) = .eq) : a = b := by
  have : Std.Symm fun a b => cmp (f a) (f b) ≠ .eq :=
    ⟨fun _ _ hne heq => hne (OrientedCmp.eq_symm heq)⟩
  by_contra hne
  exact h.forall ha hb hne heq

section Replaced

variable {β : Type} {cmp' : β → β → Ordering} {ps qs : List (α × β)}

/-- What is lower stays so when the elements are replaced. -/
theorem LowerIn.carried (h : LowerIn cmp (ps.map Prod.fst) (qs.map Prod.fst))
    (hq : (qs.map Prod.fst).Pairwise fun x y => cmp x y ≠ .eq)
    (hc : ∀ a ∈ ps, ∀ b ∈ qs, Carried (cmp a.1 b.1) (cmp' a.2 b.2)) :
    LowerIn cmp' (ps.map Prod.snd) (qs.map Prod.snd) := by
  refine List.forall_mem_map.mpr fun b hb => ?_
  obtain ⟨x, hx, hab⟩ := h b.1 (List.mem_map_of_mem hb)
  obtain ⟨a, ha, rfl⟩ := List.mem_map.mp hx
  refine ⟨a.2, List.mem_map_of_mem ha, ?_⟩
  have hcab := hc a ha b hb
  rcases hab with heq | ⟨hlt, hne⟩
  · cases hcmp : cmp' a.2 b.2 with
    | eq => exact .inl rfl
    | gt =>
      rw [heq, hcmp] at hcab
      cases hcab.1 rfl
    | lt =>
      refine .inr ⟨rfl, List.forall_mem_map.mpr fun e he hae => ?_⟩
      -- what was equal to both would be one with the second, which is equal to the first no more
      have heb : cmp e.1 b.1 = .eq :=
        TransCmp.eq_trans (OrientedCmp.eq_symm ((hc a ha e he).2 hae)) heq
      obtain rfl : e = b := eq_of_pairwise_ne (List.pairwise_map.mp hq) he hb heb
      rw [hcmp] at hae
      cases hae
  · refine .inr ⟨hcab.lt_of_lt hlt, List.forall_mem_map.mpr fun e he hae => ?_⟩
    exact hne e.1 (List.mem_map_of_mem he) ((hc a ha e he).2 hae)

variable [TransCmp cmp']

theorem carried_pairs (hp : (ps.map Prod.fst).Pairwise fun x y => cmp x y ≠ .eq)
    (hq : (qs.map Prod.fst).Pairwise fun x y => cmp x y ≠ .eq)
    (hp' : (ps.map Prod.snd).Pairwise fun x y => cmp' x y ≠ .eq)
    (hq' : (qs.map Prod.snd).Pairwise fun x y => cmp' x y ≠ .eq)
    (hc : ∀ a ∈ ps, ∀ b ∈ qs, Carried (cmp a.1 b.1) (cmp' a.2 b.2)) :
    Carried (Value.contentOrder cmp (ps.map Prod.fst) (qs.map Prod.fst))
      (Value.contentOrder cmp' (ps.map Prod.snd) (qs.map Prod.snd)) := by
  by_cases hlen : ps.length = qs.length
  · constructor
    · rw [isLE_contentOrder_iff hp hq (by simpa using hlen),
        isLE_contentOrder_iff hp' hq' (by simpa using hlen)]
      exact fun h => h.carried hq hc
    · simp only [Value.contentOrder_eq_iff, ← Multiset.map_coe, Multiset.rel_map]
      exact fun h => h.mono fun a ha b hb => (hc a ha b hb).2
  · have hne : compare ps.length qs.length ≠ .eq := fun h => hlen (Nat.compare_eq_eq.mp h)
    simp only [Value.contentOrder, List.length_map]
    exact (Carried.refl _).thenBy fun h => absurd h hne

end Replaced

/-- Contents are compared in whichever order they stand. -/
theorem contentOrder_perm {xs' ys' : List α} (hx : xs.Perm xs') (hy : ys.Perm ys') :
    Value.contentOrder cmp xs ys = Value.contentOrder cmp xs' ys' := by
  have heq {xs xs' : List α} (h : xs.Perm xs') : Value.contentOrder cmp xs xs' = .eq := by
    rw [Value.contentOrder_eq_iff, Multiset.coe_eq_coe.mpr h]
    exact Multiset.rel_refl_of_refl_on fun x _ => ReflCmp.compare_self
  rw [TransCmp.congr_left (heq hx), TransCmp.congr_right (heq hy)]

/-- What pairs off is a list of pairs. -/
theorem exists_pairs {β : Type} {r : α → β → Prop} {s : Multiset α} {t : Multiset β}
    (h : Multiset.Rel r s t) : ∃ ps : List (α × β), (ps.map Prod.fst : Multiset α) = s ∧
      (ps.map Prod.snd : Multiset β) = t ∧ ∀ p ∈ ps, r p.1 p.2 := by
  induction h with
  | zero => exact ⟨[], rfl, rfl, by simp⟩
  | @cons a b _ _ hr _ ih =>
    obtain ⟨ps, rfl, rfl, hps⟩ := ih
    exact ⟨(a, b) :: ps, rfl, rfl, List.forall_mem_cons.mpr ⟨hr, hps⟩⟩

/-- Sorted contents are carried over if their elements are. -/
theorem carried_contentOrder {β : Type} {cmp' : β → β → Ordering} [TransCmp cmp']
    {r r' : α → β → Prop} {xs' ys' : List β}
    (hx : Multiset.Rel r (xs : Multiset α) (xs' : Multiset β))
    (hy : Multiset.Rel r' (ys : Multiset α) (ys' : Multiset β))
    (hxs : xs.Pairwise fun x y => cmp x y ≠ .eq) (hys : ys.Pairwise fun x y => cmp x y ≠ .eq)
    (hxs' : xs'.Pairwise fun x y => cmp' x y ≠ .eq) (hys' : ys'.Pairwise fun x y => cmp' x y ≠ .eq)
    (hc : ∀ x ∈ xs, ∀ y ∈ ys, ∀ x' ∈ xs', ∀ y' ∈ ys', r x x' → r' y y' →
      Carried (cmp x y) (cmp' x' y')) :
    Carried (Value.contentOrder cmp xs ys) (Value.contentOrder cmp' xs' ys') := by
  obtain ⟨ps, hps, hps', hr⟩ := exists_pairs hx
  obtain ⟨qs, hqs, hqs', hr'⟩ := exists_pairs hy
  rw [Multiset.coe_eq_coe] at hps hps' hqs hqs'
  have hperm {γ : Type} {f : γ → γ → Ordering} [TransCmp f] {l l' : List γ} (h : l.Perm l')
      (hl : l'.Pairwise fun x y => f x y ≠ .eq) : l.Pairwise fun x y => f x y ≠ .eq :=
    (h.pairwise_iff fun h heq => h (OrientedCmp.eq_symm heq)).mpr hl
  rw [← contentOrder_perm hps hqs, ← contentOrder_perm hps' hqs']
  refine carried_pairs (hperm hps hxs) (hperm hqs hys) (hperm hps' hxs') (hperm hqs' hys')
    fun a ha b hb => ?_
  exact hc a.1 (hps.mem_iff.mp (List.mem_map_of_mem ha))
    b.1 (hqs.mem_iff.mp (List.mem_map_of_mem hb))
    a.2 (hps'.mem_iff.mp (List.mem_map_of_mem ha))
    b.2 (hqs'.mem_iff.mp (List.mem_map_of_mem hb)) (hr a ha) (hr' b hb)

end Sorted

end DynVal
