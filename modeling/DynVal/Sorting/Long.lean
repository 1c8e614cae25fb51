import DynVal.Sorting.Runs
import DynVal.Sorting.Short

/-!
# Sorting long lists

A long list is cut into the sorted runs that it has and loose ones between them. A loose run is
split at a pivot, over and over, until its pieces are short. Where the pivots turn out badly so
often that the allowance is used up, a piece is cut into short sorted runs instead.
-/

namespace DynVal.Sorting

open Comparing (less notLess)

variable {α : Type}

/-! ## Run lengths -/

/-- Close to the square root, by one step from the nearest power of two. -/
def nearRoot (n : Nat) : Nat :=
  let half := (n.log2 + 1) / 2
  ((1 <<< half) + (n >>> half)) / 2

/-- A list of so many elements is not cut at sorted runs shorter than this. -/
def goodLength (n : Nat) : Nat := if n ≤ 4096 then min (n - n / 2) 64 else nearRoot n

/-! ## Runs that are sorted at once -/

/-- Sorts the beginning of a list. -/
def cutSorted (grain : Grain) (xs : List α) : Comparing α (Run α) := do
  return .sorted (← sortShort grain (xs.take shortLimit))

/-- Sorts by merging runs, all of which are sorted when they are cut. -/
def sortBySortedRuns (grain : Grain) (xs : List α) : Comparing α (List α) :=
  sortByRuns pure (nextRun (goodLength xs.length) (cutSorted grain)) xs

/-! ## Pivots -/

/-- Which of three places holds the middle one of the elements there. -/
def median (element : Nat → α) (a b c : Nat) : Comparing α Nat := do
  let ab ← less (element a) (element b)
  let ac ← less (element a) (element c)
  if ab == ac then
    let bc ← less (element b) (element c)
    return if bc == ab then b else c
  else return a

/-- The median of three places, each the median of places in a stretch of so many elements that
begins there, where the stretches are long enough. -/
def spreadMedian (element : Nat → α) (a b c stretch : Nat) : Comparing α Nat :=
  if 8 ≤ stretch then do
    let k := stretch / 8
    let a ← spreadMedian element a (a + 4 * k) (a + 7 * k) k
    let b ← spreadMedian element b (b + 4 * k) (b + 7 * k) k
    let c ← spreadMedian element c (c + 4 * k) (c + 7 * k) k
    median element a b c
  else median element a b c
termination_by stretch

/-- The place of an element to split a list at. -/
def pivotPlace (xs : Array α) (default : α) : Comparing α Nat :=
  let k := xs.size / 8
  spreadMedian (xs.getD · default) 0 (4 * k) (7 * k) k

/-- Parts a list by a test, behind what was parted before, which stands in reverse. -/
def part (goesLeft : α → Comparing α Bool) :
    List α → List α → List α → Comparing α (List α × List α)
  | left, right, [] => return (left, right)
  | left, right, x :: xs => do
    if ← goesLeft x then part goesLeft (x :: left) right xs
    else part goesLeft left (x :: right) xs

/-- Parts a list into what comes before the pivot in it and the rest, which keeps the pivot. -/
def splitBefore (before : List α) (pivot : α) (after : List α) :
    Comparing α (List α × List α) := do
  let (left, right) ← part (fun x => less x pivot) [] [] before
  let (left, right) ← part (fun x => less x pivot) left (pivot :: right) after
  return (left.reverse, right.reverse)

/-- Parts a list into what the pivot in it does not come before, with the pivot, and the rest. -/
def splitAfter (before : List α) (pivot : α) (after : List α) :
    Comparing α (List α × List α) := do
  let (left, right) ← part (fun x => notLess pivot x) [] [] before
  let (left, right) ← part (fun x => notLess pivot x) (pivot :: left) right after
  return (left.reverse, right.reverse)

/-- Sorts by splitting at pivots. No element comes before `least`, if it is given: then a pivot
that is not greater, and all that are not greater than it, stand at the front in any order, and so
they do where nothing comes before the pivot. -/
def sortByPivots (grain : Grain) : Nat → Option α → List α → Comparing α (List α)
  | 0, _, xs =>
    if xs.length ≤ shortLimit then sortShort grain xs else sortBySortedRuns grain xs
  | _ + 1, _, [] => return []
  | allowance + 1, least, x :: xs =>
    if (x :: xs).length ≤ shortLimit then sortShort grain (x :: xs)
    else do
      let elements := (x :: xs).toArray
      let place ← pivotPlace elements x
      let pivot := elements.getD place x
      let before := (x :: xs).take place
      let after := (x :: xs).drop (place + 1)
      let isLeast ← match least with
        | some l => notLess l pivot
        | none => pure false
      let (left, right) ←
        if isLeast then pure ([], []) else splitBefore before pivot after
      if left.isEmpty then
        let (equal, right) ← splitAfter before pivot after
        return equal ++ (← sortByPivots grain allowance none right)
      else
        let right ← sortByPivots grain allowance (some pivot) right
        let left ← sortByPivots grain allowance least left
        return left ++ right

/-- Sorts a loose run. -/
def sortLoose (grain : Grain) (xs : List α) : Comparing α (List α) :=
  sortByPivots grain (2 * xs.length.log2) none xs

/-! ## Long lists -/

/-- Takes a loose run off a list, of the length that makes a sorted run good. -/
def cutLoose (good : Nat) (xs : List α) : Comparing α (Run α) := return .loose (xs.take good)

/-- Sorts a long list. Where two short runs make it up, they are sorted when they are cut. -/
def sortLong (grain : Grain) (xs : List α) : Comparing α (List α) :=
  if xs.length ≤ 2 * shortLimit then sortBySortedRuns grain xs
  else
    let good := goodLength xs.length
    sortByRuns (sortLoose grain) (nextRun good (cutLoose good)) xs

end DynVal.Sorting
