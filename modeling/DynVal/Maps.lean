import DynVal.Store

/-!
# Map and set values

Maps and sets at nodes. Their keys and elements are told apart by equality and hashed by structure,
which draws the identity numbers of functions that are hashed. Every operation makes a node of its
own except where the map or set that it was given serves.
-/

namespace DynVal

namespace MapNode

def make (ps : List (Value × Value)) : Op MapNode := do
  Op.share (← Op.withMemo (Map.ofPairs Memo.keyed ps))

/-- Works on a map without layers. -/
def withFlat {α : Type} (m : MapNode) (f : Map Value → StateM Memo α) : Op α :=
  Op.withMemo do f (← Memo.flat m)

def size (m : MapNode) : Op Nat := withFlat m fun x => x.size Memo.keyed

def entries (m : MapNode) : Op (List (Value × Value)) := withFlat m fun x => x.entries Memo.keyed

def get? (m : MapNode) (k : Value) : Op (Option Value) := Op.withMemo (m.body.get? Memo.keyed k)

def getStrict (m : MapNode) (k : Value) : Op Value := do
  match ← get? m k with
  | some v => return v
  | none => Op.fail (.missingKey "get" (← Op.text k) [])

def contains (m : MapNode) (k : Value) : Op Bool := withFlat m fun x => x.contains Memo.keyed k

def assoc (m : MapNode) (k v : Value) : Op MapNode := do
  Op.share (← withFlat m fun x => x.assoc Memo.keyed k v)

def dissoc (m : MapNode) (k : Value) : Op MapNode := do
  Op.share (← withFlat m fun x => x.dissoc Memo.keyed k)

/-- Lays the entries of another map over a map; those whose value equals `skip` are left out. -/
def merge (m front : MapNode) (skip : Option Value) : Op MapNode := do
  Op.shareOr m (← Op.withMemo (m.body.merge? Memo.keyed front.body skip))

/-- Works on two maps without layers. -/
def withFlatPair {α : Type} (m other : MapNode) (f : Map Value → Map Value → StateM Memo α) :
    Op α :=
  Op.withMemo do
    let (x, y) ← Memo.flatPair m other
    f x y

/-- The entries whose key another map lacks. -/
def diffNew (m other : MapNode) : Op MapNode := do
  Op.share (← withFlatPair m other fun x y => x.diffNew Memo.keyed y)

end MapNode

namespace SetNode

def make (xs : List Value) : Op SetNode := do
  Op.share (← Op.withMemo (Set.ofList Memo.keyed xs))

def contains (s : SetNode) (x : Value) : Op Bool := Op.withMemo (s.body.contains Memo.keyed x)

def insert (s : SetNode) (x : Value) : Op SetNode := do
  Op.shareOr s (← Op.withMemo (s.body.include? Memo.keyed x))

def erase (s : SetNode) (x : Value) : Op SetNode := do
  Op.shareOr s (← Op.withMemo (s.body.exclude? Memo.keyed x))

def union (s t : SetNode) : Op SetNode := do
  Op.shareOr s (← Op.withMemo (s.body.union? Memo.keyed t.body))

def intersection (s t : SetNode) : Op SetNode := do
  Op.share (← Op.withMemo (s.body.intersection Memo.keyed t.body))

def difference (s t : SetNode) : Op SetNode := do
  Op.share (← Op.withMemo (s.body.difference Memo.keyed t.body))

/-- The lesser of a value and the least of a list, the former where they are equal. -/
def leastOf (x : Value) : List Value → Op Value
  | [] => pure x
  | y :: ys => do
    match ← Op.compare x y with
    | .gt => leastOf y ys
    | _ => leastOf x ys

/-- The least element. -/
def first? (s : SetNode) : Op (Option Value) :=
  match s.body.elements with
  | [] => pure none
  | x :: xs => return some (← leastOf x xs)

/-- The set without its least element. -/
def rest (s : SetNode) : Op SetNode := do
  match ← first? s with
  | some x => erase s x
  | none => return s

end SetNode

namespace MapNode

/-- The keys that another map lacks. -/
def diffKeys (m other : MapNode) : Op SetNode := do
  SetNode.make (← withFlatPair m other fun x y => x.diffKeys Memo.keyed y)

/-- The keys that another map has as well. -/
def commonKeys (m other : MapNode) : Op SetNode := do
  SetNode.make (← withFlatPair m other fun x y => x.commonKeys Memo.keyed y)

end MapNode
end DynVal
