import DynVal.Error

/-!
# Sequences

Immutable sequences over two kinds of storage. A window shows the part `[start, stop)` of a
backing that may grow behind it; a tree owns its elements. Appending to a window that ends where
its backing ends pushes onto the backing and gives a wider window, so that a run of appends copies
nothing. No other operation writes to a backing, and a push never changes a position that a window
already shows.

A window also carries the elements that it showed when it was made: `shown`. Reading goes through
the backing (`get?`, `toList`), comparing and printing go through `shown`, and both agree as long
as backings only grow.
-/

namespace DynVal

/-- The growable backings, each known by its number. -/
abbrev Backings (α : Type) := Array (Array α)

inductive Sequence (α : Type) where
  | window (backing start stop : Nat) (shown : Array α)
  | tree (items : Array α)
deriving Inhabited

namespace Sequence

variable {α : Type}

/-- Windows that start at this offset or beyond are not grown. -/
def growthLimit : Nat := 32

/-- A window over a backing of its own. -/
def ofArray (bs : Backings α) (xs : Array α) : Sequence α × Backings α :=
  (.window bs.size 0 xs.size xs, bs.push xs)

def shown : Sequence α → Array α
  | .window _ _ _ xs => xs
  | .tree xs => xs

def isTree : Sequence α → Bool
  | .window .. => false
  | .tree _ => true

def length : Sequence α → Nat
  | .window _ start stop _ => stop - start
  | .tree xs => xs.size

def isEmpty (s : Sequence α) : Bool := s.length == 0

/-- The backing of that number, empty if there is none. -/
def backing (bs : Backings α) (b : Nat) : Array α := bs.getD b #[]

def get? (bs : Backings α) (s : Sequence α) (i : Nat) : Option α :=
  match s with
  | .window b start stop _ => if i < stop - start then (backing bs b)[start + i]? else none
  | .tree xs => xs[i]?

def toArray (bs : Backings α) : Sequence α → Array α
  | .window b start stop _ => (backing bs b).extract start stop
  | .tree xs => xs

def toList (bs : Backings α) (s : Sequence α) : List α := (s.toArray bs).toList

def nth (bs : Backings α) (s : Sequence α) (i : Nat) : Except Error α :=
  match s.get? bs i with
  | some x => .ok x
  | none => .error (.index "nth" i s.length)

def first? (bs : Backings α) (s : Sequence α) : Option α := s.get? bs 0

/-- All but the first element; `none` when the empty sequence itself serves. -/
def rest? (s : Sequence α) : Option (Sequence α) :=
  if s.isEmpty then none
  else
    match s with
    | .window b start stop xs => some (.window b (start + 1) stop (xs.extract 1 xs.size))
    | .tree xs => some (.tree (xs.extract 1 xs.size))

/-- Pushes onto the backing where the window ends with it, and moves to a tree otherwise. -/
def append (bs : Backings α) (s : Sequence α) (x : α) : Sequence α × Backings α :=
  match s with
  | .window b start stop xs =>
    if start < growthLimit ∧ (backing bs b).size = stop then
      (.window b start (stop + 1) (xs.push x), bs.modify b (·.push x))
    else (.tree ((s.toArray bs).push x), bs)
  | .tree xs => (.tree (xs.push x), bs)

def prepend (bs : Backings α) (s : Sequence α) (x : α) : Sequence α :=
  .tree (#[x] ++ s.toArray bs)

def checkIndex (op : String) (s : Sequence α) (i : Nat) : Except Error Unit :=
  if i < s.length then .ok () else .error (.index op i s.length)

/-- Replaces the element at an index. -/
def assoc (bs : Backings α) (s : Sequence α) (i : Nat) (x : α) : Except Error (Sequence α) :=
  (s.checkIndex "assoc" i).map fun _ => .tree ((s.toArray bs).setIfInBounds i x)

/-- Inserts before the element at an index. -/
def assocBefore (bs : Backings α) (s : Sequence α) (i : Nat) (x : α) :
    Except Error (Sequence α) :=
  (s.checkIndex "assoc-before" i).map fun _ => .tree ((s.toArray bs).insertIdxIfInBounds i x)

/-- Inserts after the element at an index. -/
def assocAfter (bs : Backings α) (s : Sequence α) (i : Nat) (x : α) :
    Except Error (Sequence α) :=
  (s.checkIndex "assoc-after" i).map fun _ =>
    .tree ((s.toArray bs).insertIdxIfInBounds (i + 1) x)

def dissoc (bs : Backings α) (s : Sequence α) (i : Nat) : Except Error (Sequence α) :=
  (s.checkIndex "dissoc" i).map fun _ => .tree ((s.toArray bs).eraseIdxIfInBounds i)

/-- The elements in `[start, stop)`; a window keeps its backing. -/
def slice (s : Sequence α) (start stop : Nat) : Except Error (Sequence α) :=
  if s.length < stop then .error (.index "slice" stop s.length)
  else if stop < start then .error (.index "slice" start stop)
  else
    match s with
    | .window b first _ xs =>
      .ok (.window b (first + start) (first + stop) (xs.extract start stop))
    | .tree xs => .ok (.tree (xs.extract start stop))

/-- Both sequences in a row: two windows are copied into a fresh one. -/
def concat (bs : Backings α) (s t : Sequence α) : Sequence α × Backings α :=
  if s.isTree || t.isTree then (.tree (s.toArray bs ++ t.toArray bs), bs)
  else ofArray bs (s.toArray bs ++ t.toArray bs)

def reverse (bs : Backings α) (s : Sequence α) : Sequence α := .tree (s.toArray bs).reverse

/-- Other elements in the same kind of storage, a window getting a fresh backing. -/
def refill (bs : Backings α) (s : Sequence α) (xs : Array α) : Sequence α × Backings α :=
  if s.isTree then (.tree xs, bs) else ofArray bs xs

def map (bs : Backings α) (f : α → α) (s : Sequence α) : Sequence α × Backings α :=
  s.refill bs ((s.toArray bs).map f)

end Sequence
end DynVal
