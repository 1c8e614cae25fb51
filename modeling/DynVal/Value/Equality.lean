import DynVal.Value.Memory

/-!
# Equality of values

Structural equality that never looks at storage: lists are equal item by item, maps and sets by
content, records by name, fields and values. Functions are equal to themselves only, references by
path, and a recur marker is equal to nothing. A collection is equal to itself without being looked
into, which shows where an element is not equal to itself. Lists, maps and sets whose known hashes
differ are taken for different.
-/

namespace DynVal.Value

variable {m : Type → Type} [Monad m]

/-- Pairwise over the shorter of two lists. -/
@[specialize] def allPairsM (eq : Value → Value → m Bool) : List Value → List Value → m Bool
  | x :: xs, y :: ys => do if ← eq x y then allPairsM eq xs ys else return false
  | _, _ => pure true

/-- Every entry is found with an equal value in a map. -/
@[specialize] def entriesInM (rel : Relations m) (y : Map Value) :
    List (Value × Value) → m Bool
  | [] => pure true
  | e :: es => do
    match ← y.get? rel.keyed e.1 with
    | some v => if ← rel.equal e.2 v then entriesInM rel y es else return false
    | none => return false

/-- Some element of a list is equal to a value. -/
@[specialize] def equalToSomeM (eq : Value → Value → m Bool) (x : Value) :
    List Value → m Bool
  | [] => pure false
  | y :: ys => do if ← eq x y then return true else equalToSomeM eq x ys

/-- Every value satisfies a test. -/
@[specialize] def everyM (test : Value → m Bool) : List Value → m Bool
  | [] => pure true
  | x :: xs => do if ← test x then everyM test xs else return false

/-- Equality, the parts being related by `rel`. -/
@[specialize] def equalBy (mem : Memory m) (rel : Relations m) (a b : Value) : m Bool :=
  match a, b with
  | .nil, .nil => pure true
  | .bool x, .bool y => pure (x == y)
  | .number x, .number y => pure (x.same y)
  | .str x, .str y => pure (x == y)
  | .tag x, .tag y => pure (x == y)
  | .symbol x, .symbol y => pure (x == y)
  | .quote x, .quote y => pure (x == y)
  | .ref x, .ref y => pure (x.path == y.path)
  | .fn x, .fn y => pure (x.id == y.id)
  | .list x, .list y => do
    if isSame .list x y then return true
    else if x.body.length != y.body.length then return false
    else if ← mem.differ x.node y.node then return false
    else allPairsM rel.equal x.body.shown.toList y.body.shown.toList
  | .map x, .map y => do
    if isSame .map x y then return true
    else
      let s ← mem.storageOf rel.keyed x
      let t ← mem.storageOf rel.keyed y
      if s.size != t.size then return false
      else if ← mem.differ x.node y.node then return false
      else entriesInM rel y.body s.entries
  | .set x, .set y => do
    if isSame .set x y then return true
    else if x.body.size != y.body.size then return false
    else if ← mem.differ x.node y.node then return false
    else everyM (fun e => equalToSomeM rel.equal e y.body.elements) x.body.elements
  | .record x, .record y =>
    if isSame .record x y then pure true
    else if x.body.name == y.body.name && x.body.names == y.body.names then
      allPairsM rel.equal x.body.values y.body.values
    else pure false
  | .tuple x, .tuple y => do
    if isSame .tuple x y then return true
    else if ← rel.equal x.body.tag y.body.tag then
      if x.body.extra.length == y.body.extra.length then
        allPairsM rel.equal x.body.extra y.body.extra
      else return false
    else return false
  | _, _ => pure false

end DynVal.Value
