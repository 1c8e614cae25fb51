import DynVal.Sorting.Merge

/-!
# Merging runs

A list is cut into runs from left to right, and neighbouring runs are merged in a balanced way.
Where two runs meet is a node of the merge tree; the more binary digits the midpoints of the two
runs have in common, as fractions of the whole, the deeper the node. A run waits on a stack until
a node comes that is not deeper than its own, and is merged then.

A run may be loose, that is not sorted yet. Two loose runs make a longer loose run; a loose run is
sorted when it meets a sorted one.
-/

namespace DynVal.Sorting

open Comparing (less notLess)

variable {α : Type}

inductive Run (α : Type) where
  | sorted (xs : List α)
  | loose (xs : List α)

namespace Run

def elements : Run α → List α
  | sorted xs => xs
  | loose xs => xs

def length (r : Run α) : Nat := r.elements.length

/-- The elements in order, where `sort` puts those of a loose run in order. -/
def settle (sort : List α → Comparing α (List α)) : Run α → Comparing α (List α)
  | sorted xs => return xs
  | loose xs => sort xs

/-- Joins two neighbouring runs. -/
def join (sort : List α → Comparing α (List α)) : Run α → Run α → Comparing α (Run α)
  | loose xs, loose ys => return loose (xs ++ ys)
  | r, s => do
    let xs ← r.settle sort
    let ys ← s.settle sort
    return sorted (← merge xs ys)

end Run

/-! ## Finding runs -/

/-- Extends a run, newest element first, as long as the next element goes on as the last did. -/
def extend (goesOn : α → α → Comparing α Bool) (last : α) (run : List α) :
    List α → Comparing α (List α)
  | [] => return run
  | x :: xs => do if ← goesOn last x then extend goesOn x (x :: run) xs else return run

/-- The longest run at the head of a list, in order: elements none of which comes before the one
to its left, or each of which does. -/
def firstRun : List α → Comparing α (List α)
  | x :: y :: zs => do
    if ← less y x then extend (fun last z => less z last) y [y, x] zs
    else return (← extend (fun last z => notLess z last) y [y, x] zs).reverse
  | xs => return xs

/-- The run at the head of a list of at least `good` sorted elements, or else what `cut` makes. -/
def nextRun (good : Nat) (cut : List α → Comparing α (Run α)) (xs : List α) :
    Comparing α (Run α) :=
  if xs.length < good then cut xs
  else do
    let run ← firstRun xs
    if run.length < good then cut xs else return .sorted run

/-! ## The merge tree -/

/-- The depth of the node between the runs from `left` to `mid` and from `mid` to `right`: how
many binary digits their midpoints have in common, as fractions of `total` in 64 digits. -/
def nodeDepth (total left mid right : Nat) : Nat :=
  let scale := (0x4000000000000000 + total - 1) / total
  let difference := (scale * (left + mid)) ^^^ (scale * (mid + right))
  if difference = 0 then 64 else 63 - difference.log2

/-- A run on the stack, with the depth of the node to its right. -/
structure Waiting (α : Type) where
  run : Run α
  depth : Nat

/-- Joins the last run with those that wait, while their nodes are as deep as that or deeper. -/
def collapse (sort : List α → Comparing α (List α)) (depth : Nat) :
    List (Waiting α) → Run α → Comparing α (List (Waiting α) × Run α)
  | [], last => return ([], last)
  | w :: stack, last => do
    if depth ≤ w.depth then collapse sort depth stack (← w.run.join sort last)
    else return (w :: stack, last)

/-- Cuts the rest of a list into runs and merges all runs, at most so many more. The last run ends
at `stop`. -/
def gather (sort : List α → Comparing α (List α)) (next : List α → Comparing α (Run α))
    (total : Nat) :
    Nat → List (Waiting α) → Run α → Nat → List α → Comparing α (Run α)
  | 0, _, last, _, _ => return last
  | _ + 1, stack, last, _, [] => do
    let (_, whole) ← collapse sort 0 stack last
    return whole
  | n + 1, stack, last, stop, x :: xs => do
    let run ← next (x :: xs)
    let depth := nodeDepth total (stop - last.length) stop (stop + run.length)
    let (stack, last) ← collapse sort depth stack last
    gather sort next total n (⟨last, depth⟩ :: stack) run (stop + run.length)
      ((x :: xs).drop run.length)

/-- Sorts by merging the runs that `next` finds one after the other; `sort` sorts loose ones. -/
def sortByRuns (sort : List α → Comparing α (List α)) (next : List α → Comparing α (Run α))
    (xs : List α) : Comparing α (List α) := do
  let run ← next xs
  let whole ← gather sort next xs.length (xs.length + 1) [] run run.length (xs.drop run.length)
  whole.settle sort

end DynVal.Sorting
