import DynVal.Sorting.Merge

/-!
# Sorting short lists

A short list is halved. Each half is sorted by insertion behind a block at its head, and the
halves are merged from both ends. A block is a single element where the list is very short, else
four elements, which take five comparisons, or eight where the grain is that coarse.
-/

namespace DynVal.Sorting

open Comparing (less)

variable {α : Type}

/-- Lists up to this length are short. -/
def shortLimit : Nat := 32

/-- The largest block that the sorting of a short list starts from. -/
inductive Grain where
  | four
  | eight
deriving DecidableEq

/-- The size of the blocks at the heads of the halves of a list. -/
def Grain.block (grain : Grain) (length : Nat) : Nat :=
  if length < 8 then 1
  else
    match grain with
    | .four => 4
    | .eight => if length < 16 then 4 else 8

/-- Sorts two pairs, then finds the least and the greatest; the other two are compared last. -/
def sortFour (p q r s : α) : Comparing α (List α) := do
  let (a, b) := if ← less q p then (q, p) else (p, q)
  let (c, d) := if ← less s r then (s, r) else (r, s)
  let cFirst ← less c a
  let bLast ← less d b
  let first := if cFirst then c else a
  let last := if bLast then b else d
  let x := if cFirst then a else if bLast then c else b
  let y := if bLast then d else if cFirst then b else c
  if ← less y x then return [first, y, x, last] else return [first, x, y, last]

/-- Sorts a block of one, four or eight elements. -/
def sortBlock : List α → Comparing α (List α)
  | [p, q, r, s] => sortFour p q r s
  | [p, q, r, s, t, u, v, w] => do
    let xs ← sortFour p q r s
    let ys ← sortFour t u v w
    mergeEnds xs ys
  | xs => return xs

/-- Sorts a short list. -/
def sortShort (grain : Grain) (xs : List α) : Comparing α (List α) :=
  if xs.length < 2 then return xs
  else do
    let block := grain.block xs.length
    let left := xs.take (xs.length / 2)
    let right := xs.drop (xs.length / 2)
    let ls ← sortBlock (left.take block)
    let rs ← sortBlock (right.take block)
    let ls ← insertAll ls (left.drop block)
    let rs ← insertAll rs (right.drop block)
    mergeEnds ls rs

end DynVal.Sorting
