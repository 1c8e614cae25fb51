import DynVal.Text.Quoted

/-!
# Cirru trees

The wire format: a node is a text leaf or a list of nodes. Leaves come before lists in the order,
leaves are ordered by text and lists item by item.

The printed form separates items by one space and puts a list between parentheses; a leaf is
written as a `Text.word`.
-/

namespace DynVal

inductive Cirru where
  | leaf (text : String)
  | list (items : List Cirru)
deriving Inhabited

namespace Cirru

mutual

def decEq : (a b : Cirru) → Decidable (a = b)
  | .leaf s, .leaf t =>
    if h : s = t then .isTrue (by rw [h]) else .isFalse (by intro e; cases e; exact h rfl)
  | .list xs, .list ys =>
    match decEqAll xs ys with
    | .isTrue h => .isTrue (by rw [h])
    | .isFalse h => .isFalse (by intro e; cases e; exact h rfl)
  | .leaf _, .list _ => .isFalse (by intro e; cases e)
  | .list _, .leaf _ => .isFalse (by intro e; cases e)

def decEqAll : (xs ys : List Cirru) → Decidable (xs = ys)
  | [], [] => .isTrue rfl
  | x :: xs, y :: ys =>
    match decEq x y, decEqAll xs ys with
    | .isTrue h, .isTrue hs => .isTrue (by rw [h, hs])
    | .isFalse h, _ => .isFalse (by intro e; cases e; exact h rfl)
    | _, .isFalse hs => .isFalse (by intro e; cases e; exact hs rfl)
  | [], _ :: _ => .isFalse (by intro e; cases e)
  | _ :: _, [] => .isFalse (by intro e; cases e)

end

instance : DecidableEq Cirru := decEq

mutual

def compare : Cirru → Cirru → Ordering
  | .leaf s, .leaf t => Ord.compare s t
  | .leaf _, .list _ => .lt
  | .list _, .leaf _ => .gt
  | .list xs, .list ys => compareAll xs ys

def compareAll : List Cirru → List Cirru → Ordering
  | [], [] => .eq
  | [], _ :: _ => .lt
  | _ :: _, [] => .gt
  | x :: xs, y :: ys => (compare x y).then (compareAll xs ys)

end

mutual

/-- The printed form, followed by other characters. -/
def onto : Cirru → List Char → List Char
  | .leaf s, rest => Text.word s.toList ++ rest
  | .list xs, rest => '(' :: ontoAll xs (')' :: rest)

/-- The printed forms of some trees between spaces, followed by other characters. -/
def ontoAll : List Cirru → List Char → List Char
  | [], rest => rest
  | [x], rest => x.onto rest
  | x :: xs, rest => x.onto (' ' :: ontoAll xs rest)

end

/-- The printed form. -/
def text (c : Cirru) : String := String.ofList (c.onto [])

end Cirru
end DynVal
