/-!
# Buckets

Items kept by hash: a binary search tree whose nodes are the hashes in use, each with the items
that have it. Hashes spread like random numbers, so nothing balances the tree. A bucket that has
lost its items stays in place.

The tree lists its items in the order of their hashes, which a program cannot rely on. Whatever is
proved of maps and sets holds of any other order, as it is said of a list of items up to
permutation.
-/

namespace DynVal

inductive Buckets (α : Type) where
  | empty
  | node (hash : UInt64) (items : List α) (below above : Buckets α)

namespace Buckets

variable {α : Type}

instance : Inhabited (Buckets α) := ⟨.empty⟩

/-- The items with a hash. -/
def bucket : Buckets α → UInt64 → List α
  | .empty, _ => []
  | .node h xs below above, x =>
    if x < h then below.bucket x else if h < x then above.bucket x else xs

/-- Puts other items in place of those with a hash. -/
def put (x : UInt64) (ys : List α) : Buckets α → Buckets α
  | .empty => .node x ys .empty .empty
  | .node h xs below above =>
    if x < h then .node h xs (below.put x ys) above
    else if h < x then .node h xs below (above.put x ys)
    else .node h ys below above

/-- All items in order of their hashes, followed by a list. -/
def onto : Buckets α → List α → List α
  | .empty, ys => ys
  | .node _ xs below above, ys => below.onto (xs ++ above.onto ys)

def toList (t : Buckets α) : List α := t.onto []

theorem bucket_put (t : Buckets α) (x y : UInt64) (ys : List α) :
    (t.put x ys).bucket y = if x = y then ys else t.bucket y := by
  induction t with
  | empty => grind [put, bucket]
  | node h xs below above ihb iha => grind [put, bucket]

end Buckets
end DynVal
