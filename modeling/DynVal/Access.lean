import DynVal.Lists
import DynVal.Records

/-!
# Access to collections

Operations that take any value and find out what it is: lists and tuples are addressed by index,
maps by key, records by field name, sets by element. A kind of value that does not support an
operation is a type mismatch that names both.
-/

namespace DynVal

/-- A numeric index: an integer that is not negative. Whether it is below the length is left to
the collection. -/
def indexArg (op : String) (key : Value) (length : Nat) : Except Error Nat :=
  match key with
  | .number n =>
    if n.isIntegral then
      if n.isBelowZero then .error (.indexOutOfBounds op n.toInt64 length) else .ok n.toPosition
    else .error (.typeMismatch op "integer index" key.typeName)
  | _ => .error (.typeMismatch op "integer index" key.typeName)

def mismatch {α : Type} (op expected : String) (v : Value) : Op α :=
  Op.fail (.typeMismatch op expected v.typeName)

namespace Value

def ofList (xs : List Value) : Op Value := return .list (← ListNode.make xs)

def ofPairs (ps : List (Value × Value)) : Op Value := return .map (← MapNode.make ps)

def ofElements (xs : List Value) : Op Value := return .set (← SetNode.make xs)

def ofRecur (xs : List Value) : Op Value := return .recur (← Op.share xs)

def ofTuple (tag : Value) (extra : List Value) (impls : List (Record Value)) : Op Value :=
  return .tuple (← TupleNode.make tag extra impls)

/-- The entry at a key; nil has none. -/
def lookup (v key : Value) : Op (Option Value) := do
  match v with
  | .nil => return none
  | .list l => ListNode.get? l (← Op.ofExcept (indexArg "get" key l.body.length))
  | .tuple t => return t.body.items[← Op.ofExcept (indexArg "get" key t.body.size)]?
  | .map m => MapNode.get? m key
  | .record r => return r.body.get? (← Op.ofExcept (fieldTag "get" key))
  | _ => mismatch "get" "collection" v

/-- Replaces the entry at a key. -/
def assoc (v key x : Value) : Op Value := do
  match v with
  | .list l =>
    return .list (← ListNode.assoc l (← Op.ofExcept (indexArg "assoc" key l.body.length)) x)
  | .tuple t =>
    return .tuple (← TupleNode.assoc t (← Op.ofExcept (indexArg "assoc" key t.body.size)) x)
  | .map m => return .map (← MapNode.assoc m key x)
  | .record r => return .record (← RecordNode.assoc r (← Op.ofExcept (fieldTag "assoc" key)) x)
  | _ => mismatch "assoc" "collection" v

/-- Removes the entry at a key. -/
def dissoc (v key : Value) : Op Value := do
  match v with
  | .list l =>
    return .list (← ListNode.dissoc l (← Op.ofExcept (indexArg "dissoc" key l.body.length)))
  | .map m => return .map (← MapNode.dissoc m key)
  | _ => mismatch "dissoc" "list or map" v

def append (v x : Value) : Op Value := do
  match v with
  | .list l => return .list (← ListNode.append l x)
  | _ => mismatch "append" "list" v

def concat (v w : Value) : Op Value := do
  match v, w with
  | .list l, .list k => return .list (← ListNode.concat l k)
  | .list _, _ => mismatch "concat" "list" w
  | _, _ => mismatch "concat" "list" v

/-- Lays a map over a map or record; nil changes nothing. -/
def merge (v w : Value) : Op Value := do
  match v, w with
  | .map _, .nil => return v
  | .record _, .nil => return v
  | .map m, .map n => return .map (← MapNode.merge m n none)
  | .record r, .map n => return .record (← RecordNode.merge r n)
  | .map _, _ => mismatch "merge" "map" w
  | .record _, _ => mismatch "merge" "map" w
  | _, _ => mismatch "merge" "map" v

/-- Number of entries, or of characters. -/
def count (v : Value) : Op Nat := do
  match v with
  | .nil => return 0
  | .list l => return l.body.length
  | .map m => MapNode.size m
  | .set s => return s.body.size
  | .record r => return r.body.size
  | .tuple t => return t.body.size
  | .str s => return s.length
  | _ => mismatch "count" "collection" v

/-- Whether there is an entry at a key. -/
def contains (v key : Value) : Op Bool := do
  match v with
  | .nil => return false
  | .list l =>
    match indexArg "contains" key l.body.length with
    | .ok i => return i < l.body.length
    | .error _ => return false
  | .map m => MapNode.contains m key
  | .set s => SetNode.contains s key
  | .record r => return r.body.contains (← Op.ofExcept (fieldTag "contains" key))
  | _ => mismatch "contains" "collection" v

end Value
end DynVal
