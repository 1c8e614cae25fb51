import DynVal.Sorting.Long

/-!
# Sorting and comparing in sequence

Stable sorting and lexicographic comparison, for comparisons that may have effects. Which elements
are compared, and in which order, is part of the definition: few elements are sorted by insertion,
more by merging runs (`Sorting.sortLong`).
-/

namespace DynVal

variable {m : Type → Type} [Monad m] {α : Type}

/-- Lists up to this length are sorted by insertion. -/
def insertionLimit : Nat := 20

/-- The comparisons of a stable sort. -/
def Sorting.sort (grain : Sorting.Grain) (xs : List α) : Comparing α (List α) :=
  if xs.length ≤ insertionLimit then insertAll [] xs else sortLong grain xs

/-- Whether `x` comes before `y`. -/
@[specialize] def isBeforeM (cmp : α → α → m Ordering) (x y : α) : m Bool := do
  match ← cmp x y with
  | .lt => return true
  | _ => return false

/-- Stable sort, least element first. -/
@[specialize] def sortM (grain : Sorting.Grain) (cmp : α → α → m Ordering) (xs : List α) :
    m (List α) :=
  (Sorting.sort grain xs).exec (isBeforeM cmp)

def sortBy (cmp : α → α → Ordering) (xs : List α) : List α :=
  (Sorting.sort .four xs).eval fun x y => cmp x y == .lt

/-- Lexicographic order; the end of a list comes before everything. -/
@[specialize] def lexM {β : Type} (cmp : α → β → m Ordering) :
    List α → List β → m Ordering
  | [], [] => pure .eq
  | [], _ :: _ => pure .lt
  | _ :: _, [] => pure .gt
  | x :: xs, y :: ys => do
    match ← cmp x y with
    | .eq => lexM cmp xs ys
    | o => pure o

def lexBy {β : Type} (cmp : α → β → Ordering) (xs : List α) (ys : List β) : Ordering :=
  Id.run (lexM (m := Id) cmp xs ys)

/-- The second comparison decides where the first does not. -/
@[inline] def thenM (first second : m Ordering) : m Ordering := do
  match ← first with
  | .eq => second
  | o => pure o

end DynVal
