import DynVal.Number
import DynVal.Cirru
import DynVal.Map
import DynVal.Sequence
import DynVal.Set
import DynVal.Tuple

/-!
# Values

The dynamic values of the language. Values are immutable trees; what changes is the content of the
cells that references name, and that is kept elsewhere. A composite value is a node with a number
of its own that several values may share.

Two numbers bound a descent into a value. `Value.depth` is the height of the tree of its parts.
`Value.level` is read off the number of the node, and is never less than the depth where parts
were made before the wholes that they are in.
-/

namespace DynVal

/-- A body at a numbered node. -/
structure Shared (β : Type) where
  node : Nat
  body : β

/-- A mutable cell, known by its path; `cell` is the slot that holds its content. -/
structure Ref where
  cell : Nat
  path : String
deriving DecidableEq

/-- A callable value. -/
structure Fn where
  id : Nat
  name : String
deriving DecidableEq

inductive Value where
  | nil
  | bool (b : Bool)
  | number (n : Number)
  | str (s : String)
  | tag (t : Tag)
  | symbol (s : Symbol)
  | quote (c : Cirru)
  | ref (r : Ref)
  | fn (f : Fn)
  | recur (r : Shared (List Value))
  | list (l : Shared (Sequence Value))
  | map (m : Shared (Map Value))
  | set (s : Shared (Set Value))
  | record (r : Shared (Record Value))
  | tuple (t : Shared (Tuple Value))
deriving Inhabited

abbrev RecurNode := Shared (List Value)

abbrev ListNode := Shared (Sequence Value)

abbrev MapNode := Shared (Map Value)

abbrev SetNode := Shared (Set Value)

abbrev RecordNode := Shared (Record Value)

abbrev TupleNode := Shared (Tuple Value)

/-- The variants of value, which method dispatch tells apart. -/
inductive Kind where
  | nil | bool | number | str | tag | symbol | ref | fn | recur | list | map | set | record | tuple
  | quote
deriving DecidableEq

/-- The name of a kind in messages. -/
def Kind.name : Kind → String
  | .nil => "nil"
  | .bool => "bool"
  | .number => "number"
  | .str => "string"
  | .tag => "tag"
  | .symbol => "symbol"
  | .ref => "ref"
  | .fn => "fn"
  | .recur => "recur"
  | .list => "list"
  | .map => "map"
  | .set => "set"
  | .record => "record"
  | .tuple => "tuple"
  | .quote => "quote"

namespace Value

def kind : Value → Kind
  | .nil => .nil
  | .bool _ => .bool
  | .number _ => .number
  | .str _ => .str
  | .tag _ => .tag
  | .symbol _ => .symbol
  | .quote _ => .quote
  | .ref _ => .ref
  | .fn _ => .fn
  | .recur _ => .recur
  | .list _ => .list
  | .map _ => .map
  | .set _ => .set
  | .record _ => .record
  | .tuple _ => .tuple

def typeName (v : Value) : String := v.kind.name

def isNil : Value → Bool
  | .nil => true
  | _ => false

/-- Everything but nil and false. -/
def isTruthy : Value → Bool
  | .nil => false
  | .bool b => b
  | _ => true

/-- Scalars that are written as a single leaf. -/
def isLiteral : Value → Bool
  | .nil | .bool _ | .number _ | .str _ | .tag _ | .symbol _ => true
  | _ => false

def asNumber? : Value → Option Number
  | .number n => some n
  | _ => none

def asStr? : Value → Option String
  | .str s => some s
  | _ => none

def asTag? : Value → Option Tag
  | .tag t => some t
  | _ => none

def asList? : Value → Option ListNode
  | .list l => some l
  | _ => none

def asMap? : Value → Option MapNode
  | .map m => some m
  | _ => none

def asSet? : Value → Option SetNode
  | .set s => some s
  | _ => none

def asRecord? : Value → Option RecordNode
  | .record r => some r
  | _ => none

def asTuple? : Value → Option TupleNode
  | .tuple t => some t
  | _ => none

def asFn? : Value → Option Fn
  | .fn f => some f
  | _ => none

def asRef? : Value → Option Ref
  | .ref r => some r
  | _ => none

/-- Whether two values are one node, cell or function. -/
def sameNode : Value → Value → Bool
  | .list a, .list b => a.node == b.node
  | .map a, .map b => a.node == b.node
  | .set a, .set b => a.node == b.node
  | .record a, .record b => a.node == b.node
  | .tuple a, .tuple b => a.node == b.node
  | .ref a, .ref b => a.cell == b.cell
  | .fn a, .fn b => a.id == b.id
  | _, _ => false

/-- One more than the number of the node, none for a scalar. -/
def level : Value → Nat
  | .recur r => r.node + 1
  | .list l => l.node + 1
  | .map m => m.node + 1
  | .set s => s.node + 1
  | .record r => r.node + 1
  | .tuple t => t.node + 1
  | _ => 0

mutual

/-- Height of the tree of parts. Implementation tables are not parts. -/
def depth : Value → Nat
  | .recur ⟨_, xs⟩ => depthAll xs + 1
  | .list ⟨_, .window _ _ _ ⟨xs⟩⟩ => depthAll xs + 1
  | .list ⟨_, .tree ⟨xs⟩⟩ => depthAll xs + 1
  | .map ⟨_, m⟩ => depthMap m + 1
  | .set ⟨_, ⟨s⟩⟩ => depthMembers s + 1
  | .record ⟨_, ⟨_, fs, _⟩⟩ => depthFields fs + 1
  | .tuple ⟨_, ⟨t, xs, _⟩⟩ => max (depth t) (depthAll xs) + 1
  | _ => 0
termination_by structural v => v

def depthAll : List Value → Nat
  | [] => 0
  | x :: xs => max (depth x) (depthAll xs)
termination_by structural xs => xs

def depthMap : Map Value → Nat
  | .flat s => depthStorage s
  | .chain front skip back _ => max (depthMap front) (max (depthSkip skip) (depthMap back))
termination_by structural m => m

def depthSkip : Option Value → Nat
  | none => 0
  | some v => depth v
termination_by structural s => s

def depthStorage : Storage Value Value → Nat
  | .slice es => depthEntries es
  | .tree t => depthBuckets t
termination_by structural s => s

def depthBuckets : Buckets (Value × Value) → Nat
  | .empty => 0
  | .node _ es below above => max (depthEntries es) (max (depthBuckets below) (depthBuckets above))
termination_by structural t => t

def depthEntries : List (Value × Value) → Nat
  | [] => 0
  | e :: es => max (depthEntry e) (depthEntries es)
termination_by structural es => es

def depthEntry : Value × Value → Nat
  | (k, v) => max (depth k) (depth v)
termination_by structural e => e

def depthMembers : Storage Value Unit → Nat
  | .slice es => depthKeys es
  | .tree t => depthKeyBuckets t
termination_by structural s => s

def depthKeyBuckets : Buckets (Value × Unit) → Nat
  | .empty => 0
  | .node _ es below above =>
    max (depthKeys es) (max (depthKeyBuckets below) (depthKeyBuckets above))
termination_by structural t => t

def depthKeys : List (Value × Unit) → Nat
  | [] => 0
  | e :: es => max (depthKey e) (depthKeys es)
termination_by structural es => es

def depthKey : Value × Unit → Nat
  | (k, _) => depth k
termination_by structural e => e

def depthFields : List (Tag × Value) → Nat
  | [] => 0
  | f :: fs => max (depthField f) (depthFields fs)
termination_by structural fs => fs

def depthField : Tag × Value → Nat
  | (_, v) => depth v
termination_by structural f => f

end

end Value
end DynVal
