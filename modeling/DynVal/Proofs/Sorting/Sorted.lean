import Mathlib.Data.List.Forall2
import Mathlib.Data.Multiset.Count
import DynVal.Proofs.Sorting.Long

/-!
# Sorted lists

Sorting by a total preorder, without effects.

* `sorts_sorted`: the sort puts a list in order.
* `compareLex_sorted_eq_iff`: two lists compare equal when they are sorted if and only if their
  elements can be paired off so that partners compare equal (`Multiset.Rel`). So sorted lists show
  what they hold up to the order, and nothing of how it stood before.
-/

namespace DynVal

open Std Sorting

variable {α β : Type}

/-! ## Without effects -/

theorem Comparing.exec_id (before : α → α → Bool) (c : Comparing α β) :
    c.exec (m := Id) before = c.eval before := by
  induction c with
  | done b => rfl
  | ask x y next ih => exact ih _

theorem isBeforeM_id (cmp : α → α → Ordering) :
    isBeforeM (m := Id) cmp = fun x y => cmp x y == .lt := by
  funext x y
  simp only [isBeforeM, bind, pure]
  cases cmp x y <;> rfl

theorem lexM_id (cmp : α → α → Ordering) (xs ys : List α) :
    lexM (m := Id) cmp xs ys = List.compareLex cmp xs ys := by
  induction xs generalizing ys with
  | nil => cases ys <;> rfl
  | cons x xs ih =>
    cases ys with
    | nil => rfl
    | cons y ys =>
      rw [List.compareLex_cons_cons, ← ih]
      simp only [lexM, bind, pure]
      cases cmp x y <;> rfl

theorem thenM_id (first second : Ordering) :
    thenM (m := Id) first second = first.then second := by
  cases first <;> rfl

/-- A list sorted without effects. -/
def sorted (grain : Grain) (cmp : α → α → Ordering) (xs : List α) : List α :=
  Id.run (sortM grain cmp xs)

theorem sorted_eq_eval (grain : Grain) (cmp : α → α → Ordering) (xs : List α) :
    sorted grain cmp xs = (sort grain xs).eval fun x y => cmp x y == .lt := by
  rw [sorted, sortM, isBeforeM_id, Comparing.exec_id]
  rfl

theorem sortBy_eq_sorted (cmp : α → α → Ordering) (xs : List α) :
    sortBy cmp xs = sorted .four cmp xs := (sorted_eq_eval .four cmp xs).symm

/-! ## Sorting by a total preorder -/

section Sorted

variable {cmp : α → α → Ordering} [TransCmp cmp]

theorem weakOrder_lt : WeakOrder fun x y => cmp x y == .lt where
  asymm {x y} h := by
    have := OrientedCmp.gt_of_lt (beq_iff_eq.mp h)
    simp [this]
  trans {x y z} h h' := by
    simp only [beq_eq_false_iff_ne, ne_eq, ← @OrientedCmp.gt_iff_lt _ cmp] at h h' ⊢
    have hxy : (cmp x y).isLE := by cases hc : cmp x y <;> simp_all
    have hyz : (cmp y z).isLE := by cases hc : cmp y z <;> simp_all
    intro hgt
    have := TransCmp.isLE_trans hxy hyz
    simp [hgt] at this

theorem sorts_sorted (grain : Grain) (xs : List α) :
    Sorts (fun x y => cmp x y == .lt) xs (sorted grain cmp xs) := by
  rw [sorted_eq_eval]
  exact (yields_sort (P := fun _ => True) weakOrder_lt grain fun _ _ => trivial).eval

theorem sorted_perm (grain : Grain) (xs : List α) : (sorted grain cmp xs).Perm xs :=
  (sorts_sorted grain xs).perm

theorem pairwise_sorted (grain : Grain) (xs : List α) :
    (sorted grain cmp xs).Pairwise fun x y => (cmp x y).isLE := by
  refine (sorts_sorted grain xs).ordered.imp fun {x y} h => ?_
  simp only [beq_eq_false_iff_ne, ne_eq, ← @OrientedCmp.gt_iff_lt _ cmp] at h
  cases hc : cmp x y <;> simp_all

end Sorted

/-! ## Lists that hold the same up to the order -/

theorem compareLex_eq_iff {cmp : α → α → Ordering} {xs ys : List α} :
    List.compareLex cmp xs ys = .eq ↔ List.Forall₂ (fun x y => cmp x y = .eq) xs ys := by
  induction xs generalizing ys with
  | nil => cases ys <;> simp [List.compareLex_nil_nil, List.compareLex_nil_cons]
  | cons x xs ih =>
    cases ys with
    | nil => simp [List.compareLex_cons_nil]
    | cons y ys => simp [List.compareLex_cons_cons, Ordering.then_eq_eq, ih]

theorem rel_of_forall₂ {r : α → β → Prop} {xs : List α} {ys : List β}
    (h : List.Forall₂ r xs ys) : Multiset.Rel r (xs : Multiset α) (ys : Multiset β) := by
  induction h with
  | nil => exact .zero
  | cons hr _ ih => exact .cons hr ih

section Rel

variable {cmp : α → α → Ordering} [TransCmp cmp]

instance isTrans_compare_eq : IsTrans α fun x y => cmp x y = .eq :=
  ⟨fun _ _ _ => TransCmp.eq_trans⟩

instance symm_compare_eq : Std.Symm fun x y => cmp x y = .eq :=
  ⟨fun _ _ => OrientedCmp.eq_symm⟩

/-- Two ordered lists of which every element finds as many equals in one as in the other. -/
theorem forall₂_of_countP_eq {xs ys : List α} (hx : xs.Pairwise fun x y => (cmp x y).isLE)
    (hy : ys.Pairwise fun x y => (cmp x y).isLE)
    (hc : ∀ z, xs.countP (fun x => decide (cmp z x = .eq)) =
      ys.countP fun y => decide (cmp z y = .eq)) :
    List.Forall₂ (fun x y => cmp x y = .eq) xs ys := by
  induction xs generalizing ys with
  | nil =>
    cases ys with
    | nil => exact .nil
    | cons y ys =>
      have := hc y
      simp [ReflCmp.compare_self] at this
  | cons x xs ih =>
    cases ys with
    | nil =>
      have := hc x
      simp [ReflCmp.compare_self] at this
    | cons y ys =>
      -- each head has an equal in the other list, and so is not above the other head
      have hyx : (cmp y x).isLE := by
        have hpos : 0 < (y :: ys).countP fun y => decide (cmp x y = .eq) := by
          rw [← hc x]
          simp [ReflCmp.compare_self]
        obtain ⟨w, hw, hxw⟩ := List.countP_pos_iff.mp hpos
        have hyw : (cmp y w).isLE := by
          rcases List.mem_cons.mp hw with rfl | hw
          · exact ReflCmp.isLE_rfl
          · exact List.rel_of_pairwise_cons hy hw
        rw [TransCmp.congr_right (OrientedCmp.eq_symm (of_decide_eq_true hxw))] at hyw
        exact hyw
      have hxy : (cmp x y).isLE := by
        have hpos : 0 < (x :: xs).countP fun x => decide (cmp y x = .eq) := by
          rw [hc y]
          simp [ReflCmp.compare_self]
        obtain ⟨w, hw, hyw⟩ := List.countP_pos_iff.mp hpos
        have hxw : (cmp x w).isLE := by
          rcases List.mem_cons.mp hw with rfl | hw
          · exact ReflCmp.isLE_rfl
          · exact List.rel_of_pairwise_cons hx hw
        rw [TransCmp.congr_right (OrientedCmp.eq_symm (of_decide_eq_true hyw))] at hxw
        exact hxw
      have heq : cmp x y = .eq := OrientedCmp.isLE_antisymm hxy hyx
      refine .cons heq (ih hx.tail hy.tail fun z => ?_)
      have := hc z
      rw [List.countP_cons, List.countP_cons, TransCmp.congr_right heq] at this
      omega

theorem compareLex_sorted_eq_iff (grain : Grain) {xs ys : List α} :
    List.compareLex cmp (sorted grain cmp xs) (sorted grain cmp ys) = .eq ↔
      Multiset.Rel (fun x y => cmp x y = .eq) (xs : Multiset α) (ys : Multiset α) := by
  rw [compareLex_eq_iff]
  have hx : (sorted grain cmp xs : Multiset α) = xs :=
    Multiset.coe_eq_coe.mpr (sorted_perm grain xs)
  have hy : (sorted grain cmp ys : Multiset α) = ys :=
    Multiset.coe_eq_coe.mpr (sorted_perm grain ys)
  constructor
  · intro h
    rw [← hx, ← hy]
    exact rel_of_forall₂ h
  · intro h
    refine forall₂_of_countP_eq (pairwise_sorted grain xs) (pairwise_sorted grain ys) fun z => ?_
    have hz := Multiset.Rel.countP_eq (fun x y => cmp x y = .eq) z h
    rw [← hx, ← hy, Multiset.coe_countP, Multiset.coe_countP] at hz
    exact hz

/-! ## Lists in strictly increasing order -/

/-- Where two lists correspond, so do their pairs. -/
theorem pairwise_of_forall₂ {r : α → β → Prop} {S : α → α → Prop} {T : β → β → Prop} {xs : List α}
    {ys : List β} (ht : ∀ x y x' y', r x y → r x' y' → S x x' → T y y') (h : List.Forall₂ r xs ys)
    (hx : xs.Pairwise S) : ys.Pairwise T := by
  induction h with
  | nil => exact .nil
  | @cons x y xs ys hxy hrest ih =>
    refine List.pairwise_cons.mpr ⟨fun y' hy' => ?_, ih hx.tail⟩
    obtain ⟨x', hx', hxy'⟩ := Multiset.exists_mem_of_rel_of_mem
      (Multiset.rel_flip.mpr (rel_of_forall₂ hrest)) (Multiset.mem_coe.mpr hy')
    exact ht x y x' y' hxy hxy' (List.rel_of_pairwise_cons hx (Multiset.mem_coe.mp hx'))

/-- Two such lists that pair off pair off as they stand. -/
theorem forall₂_of_rel {r : α → α → Prop} {xs ys : List α}
    (hr : ∀ x ∈ xs, ∀ y ∈ ys, r x y → cmp x y = .eq)
    (hx : xs.Pairwise fun x y => cmp x y = .lt) (hy : ys.Pairwise fun x y => cmp x y = .lt)
    (h : Multiset.Rel r (xs : Multiset α) (ys : Multiset α)) : List.Forall₂ r xs ys := by
  induction xs generalizing ys with
  | nil =>
    obtain rfl : ys = [] := List.length_eq_zero_iff.mp (Multiset.card_eq_card_of_rel h).symm
    exact .nil
  | cons x xs ih =>
    rw [← Multiset.cons_coe, Multiset.rel_cons_left] at h
    obtain ⟨y, t, hxy, hrest, hys⟩ := h
    obtain ⟨zs, rfl⟩ := Quot.exists_rep t
    have hperm : ys.Perm (y :: zs) := Multiset.coe_eq_coe.mp hys
    cases ys with
    | nil => exact absurd hperm.symm (List.cons_ne_nil _ _ ∘ List.Perm.eq_nil)
    | cons w ws =>
      rcases List.mem_cons.mp (hperm.mem_iff.mpr (by simp) : y ∈ w :: ws) with rfl | hyw
      · have hws : ws.Perm zs := List.perm_cons y |>.mp hperm
        refine .cons hxy (ih (fun u hu v hv => hr u (by simp [hu]) v (by simp [hv]))
          hx.tail hy.tail ?_)
        rw [Multiset.coe_eq_coe.mpr hws]
        exact hrest
      · -- the head would be above what the head of the other list is paired with
        have hlt : cmp w y = .lt := List.rel_of_pairwise_cons hy hyw
        have hwz : w ∈ zs := by
          rcases List.mem_cons.mp (hperm.mem_iff.mp (by simp) : w ∈ y :: zs) with rfl | hw
          · rw [@ReflCmp.compare_self _ cmp] at hlt
            cases hlt
          · exact hw
        obtain ⟨u, hu, huw⟩ := Multiset.exists_mem_of_rel_of_mem (Multiset.rel_flip.mpr hrest)
          (Multiset.mem_coe.mpr hwz)
        have hxu : cmp x u = .lt := List.rel_of_pairwise_cons hx (Multiset.mem_coe.mp hu)
        have huw' := hr u (by simp [Multiset.mem_coe.mp hu]) w (by simp) huw
        have hxy' := hr x (by simp) y (by simp [hyw]) hxy
        rw [← TransCmp.congr_right hxy', ← OrientedCmp.gt_iff_lt] at hlt
        rw [TransCmp.congr_right huw', hlt] at hxu
        cases hxu

/-- Elements of which no two are equal are put in strictly increasing order. -/
theorem pairwise_lt_sorted (grain : Grain) {xs : List α}
    (h : xs.Pairwise fun x y => cmp x y ≠ .eq) :
    (sorted grain cmp xs).Pairwise fun x y => cmp x y = .lt := by
  have hne : (sorted grain cmp xs).Pairwise fun x y => cmp x y ≠ .eq :=
    (List.Perm.pairwise_iff (fun h heq => h (OrientedCmp.eq_symm heq)) (sorted_perm grain xs)).mpr h
  refine ((pairwise_sorted grain xs).and hne).imp fun {x y} h => ?_
  cases hc : cmp x y <;> simp_all

/-- What is in strictly increasing order is what sorting it in any order gives. -/
theorem sorted_eq_of_perm (grain : Grain) {xs ys : List α} (h : xs.Perm ys)
    (hy : ys.Pairwise fun x y => cmp x y = .lt) : sorted grain cmp xs = ys := by
  have hne : ys.Pairwise fun x y => cmp x y ≠ .eq := hy.imp fun h => by simp [h]
  have hx : xs.Pairwise fun x y => cmp x y ≠ .eq :=
    (List.Perm.pairwise_iff (fun h heq => h (OrientedCmp.eq_symm heq)) h).mpr hne
  refine List.Perm.eq_of_pairwise (fun a b _ _ hab hba => ?_) (pairwise_lt_sorted grain hx) hy
    ((sorted_perm grain xs).trans h)
  rw [OrientedCmp.gt_of_lt hab] at hba
  cases hba

/-- Lists that correspond are in strictly increasing order together. -/
theorem pairwise_lt_of_forall₂ {r : α → α → Prop} {xs ys : List α}
    (hr : ∀ x y, r x y → cmp x y = .eq) (h : List.Forall₂ r xs ys)
    (hx : xs.Pairwise fun x y => cmp x y = .lt) : ys.Pairwise fun x y => cmp x y = .lt := by
  refine pairwise_of_forall₂ (fun x y x' y' hxy hxy' hlt => ?_) h hx
  rw [← TransCmp.congr_left (hr x y hxy), ← TransCmp.congr_right (hr x' y' hxy')]
  exact hlt

end Rel

end DynVal
