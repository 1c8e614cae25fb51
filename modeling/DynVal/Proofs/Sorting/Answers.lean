import Mathlib.Data.List.Basic
import DynVal.Sorting.Comparing

/-!
# What a computation that compares yields

`Comparing.Yields before P Q c`: when every question is answered by the test `before`, the
computation `c` asks about elements in `P` only and ends with a result in `Q`. The rules for
`bind`, `less` and `notLess` are equivalences, so that a computation is run through by rewriting.

Tests that sort are weak orders (`WeakOrder`). `Ordered before xs` says that no element of `xs`
comes before one to its left, and `Sorts before xs ys` that `ys` is `xs` put in such an order.
-/

namespace DynVal

namespace Comparing

variable {α β γ : Type} {before : α → α → Bool} {P : α → Prop} {Q R : β → Prop}

/-- Answered by the test, the computation asks about `P` only and ends in `Q`. -/
def Yields (before : α → α → Bool) (P : α → Prop) (Q : β → Prop) : Comparing α β → Prop
  | .done b => Q b
  | .ask x y next => P x ∧ P y ∧ Yields before P Q (next (before x y))

theorem yields_pure {b : β} : (pure b : Comparing α β).Yields before P Q ↔ Q b := Iff.rfl

theorem yields_bind {c : Comparing α γ} {k : γ → Comparing α β} :
    (c >>= k).Yields before P Q ↔ c.Yields before P fun b => (k b).Yields before P Q := by
  induction c with
  | done b => rfl
  | ask x y next ih => exact and_congr_right fun _ => and_congr_right fun _ => ih _

theorem yields_less {x y : α} {Q : Bool → Prop} :
    (less x y).Yields before P Q ↔ P x ∧ P y ∧ Q (before x y) := Iff.rfl

theorem yields_notLess {x y : α} {Q : Bool → Prop} :
    (notLess x y).Yields before P Q ↔ P x ∧ P y ∧ Q !(before x y) := Iff.rfl

theorem Yields.mono {c : Comparing α β} (h : c.Yields before P Q) (hq : ∀ b, Q b → R b) :
    c.Yields before P R := by
  induction c with
  | done b => exact hq b h
  | ask x y next ih => exact ⟨h.1, h.2.1, ih _ h.2.2⟩

theorem Yields.eval {c : Comparing α β} (h : c.Yields before P Q) : Q (c.eval before) := by
  induction c with
  | done b => exact h
  | ask x y next ih => exact ih _ h.2.2

end Comparing

namespace Sorting

variable {α : Type} {before : α → α → Bool} {xs ys zs : List α}

/-- A strict order in which not coming before is transitive as well. -/
structure WeakOrder (before : α → α → Bool) : Prop where
  asymm : ∀ {x y}, before x y = true → before y x = false
  trans : ∀ {x y z}, before y x = false → before z y = false → before z x = false

/-- No element comes before one to its left. -/
def Ordered (before : α → α → Bool) (xs : List α) : Prop :=
  xs.Pairwise fun x y => before y x = false

/-- The second list holds the elements of the first in order. -/
structure Sorts (before : α → α → Bool) (xs ys : List α) : Prop where
  perm : ys.Perm xs
  ordered : Ordered before ys

namespace WeakOrder

variable (hw : WeakOrder before) {x y z : α}
include hw

theorem irrefl (x : α) : before x x = false := by
  cases h : before x x with
  | false => rfl
  | true => rw [hw.asymm h] at h; cases h

theorem lt_of_lt_of_le (h : before x y = true) (hz : before z y = false) :
    before x z = true := by
  cases hxz : before x z with
  | true => rfl
  | false => rw [hw.trans hz hxz] at h; cases h

theorem lt_of_le_of_lt (hz : before y x = false) (h : before y z = true) :
    before x z = true := by
  cases hxz : before x z with
  | true => rfl
  | false => rw [hw.trans hxz hz] at h; cases h

end WeakOrder

theorem Sorts.length_eq (h : Sorts before xs ys) : ys.length = xs.length := h.perm.length_eq

theorem Sorts.mem_iff (h : Sorts before xs ys) {x : α} : x ∈ ys ↔ x ∈ xs := h.perm.mem_iff

theorem Sorts.of_perm (h : Sorts before ys zs) (hp : ys.Perm xs) : Sorts before xs zs :=
  ⟨h.perm.trans hp, h.ordered⟩

end Sorting
end DynVal
