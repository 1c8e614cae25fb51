import DynVal.Sorting.Comparing

/-!
# Inserting and merging

Insertion carries an element from the end of a sorted list towards the front, past the elements
that it comes before. Merging takes the heads of two sorted lists one by one, starting where the
shorter list lies, or works from both ends of two halves in turn. Equal elements stay in place.
-/

namespace DynVal.Sorting

open Comparing (less notLess)

variable {α : Type}

/-! ## Insertion -/

/-- Places `x` in a list whose greatest element comes first, behind all that it comes before. -/
def carry (x : α) (passed : List α) : List α → Comparing α (List α)
  | [] => return passed.reverse ++ [x]
  | y :: ys => do
    if ← less x y then carry x (y :: passed) ys
    else return passed.reverse ++ x :: y :: ys

/-- Places elements one by one in a list whose greatest element comes first. -/
def carryAll : List α → List α → Comparing α (List α)
  | sorted, [] => return sorted
  | sorted, x :: xs => do carryAll (← carry x [] sorted) xs

/-- Inserts elements one by one into a sorted list. -/
def insertAll (sorted xs : List α) : Comparing α (List α) := do
  return (← carryAll sorted.reverse xs).reverse

/-! ## Merging -/

/-- Merges two lists behind the elements merged so far, which stand in reverse. -/
def mergeWith (rightFirst : α → α → Comparing α Bool) :
    List α → List α → List α → Comparing α (List α)
  | merged, [], ys => return merged.reverse ++ ys
  | merged, x :: xs, [] => return merged.reverse ++ x :: xs
  | merged, x :: xs, y :: ys => do
    if ← rightFirst x y then mergeWith rightFirst (y :: merged) (x :: xs) ys
    else mergeWith rightFirst (x :: merged) xs (y :: ys)
termination_by _ xs ys => xs.length + ys.length

/-- Merges from the front. -/
def mergeUp (xs ys : List α) : Comparing α (List α) :=
  mergeWith (fun x y => less y x) [] xs ys

/-- Merges from the back. -/
def mergeDown (xs ys : List α) : Comparing α (List α) := do
  return (← mergeWith (fun x y => notLess y x) [] xs.reverse ys.reverse).reverse

/-- Merges two sorted lists. Of equal elements those of the first list come first. -/
def merge (xs ys : List α) : Comparing α (List α) :=
  if ys.length < xs.length then mergeDown xs ys else mergeUp xs ys

/-! ## Merging from both ends -/

/-- What is left of two lists, and what was taken off their heads, newest first. -/
structure Heads (α : Type) where
  left : List α
  right : List α
  taken : List α

/-- Takes a head off one of the lists while both have one. -/
def Heads.take (rightFirst : α → α → Comparing α Bool) : Heads α → Comparing α (Heads α)
  | ⟨x :: xs, y :: ys, taken⟩ => do
    if ← rightFirst x y then return ⟨x :: xs, ys, y :: taken⟩
    else return ⟨xs, y :: ys, x :: taken⟩
  | heads => return heads

/-- Takes so many elements off the front and off the back, in turn. -/
def takeEnds : Nat → Heads α → Heads α → Comparing α (Heads α × Heads α)
  | 0, front, back => return (front, back)
  | n + 1, front, back => do
    let front ← front.take fun x y => less y x
    let back ← back.take fun x y => notLess y x
    takeEnds n front back

/-- Merges two sorted lists, the second as long as the first or one longer, from both ends. What
neither end took stands in the middle. -/
def mergeEnds (xs ys : List α) : Comparing α (List α) := do
  let (front, back) ← takeEnds xs.length ⟨xs, ys, []⟩ ⟨xs.reverse, ys.reverse, []⟩
  let left := front.left.take (front.left.length + back.left.length - xs.length)
  let right := front.right.take (front.right.length + back.right.length - ys.length)
  return front.taken.reverse ++ left ++ right ++ back.taken

end DynVal.Sorting
