import DynVal.Value.Memory
import DynVal.Sorting

/-!
# Order of values

A total order. Kinds are ordered by a fixed rank and values of one kind by their parts; the
contents of sets and maps are sorted before they are compared, so that storage and insertion order
do not count. Functions are ordered by identity numbers.
-/

namespace DynVal

/-- The place of a kind in the order. -/
def Kind.rank : Kind → Nat
  | .nil => 0
  | .bool => 1
  | .number => 2
  | .symbol => 3
  | .tag => 4
  | .str => 5
  | .quote => 6
  | .ref => 7
  | .tuple => 8
  | .recur => 9
  | .list => 10
  | .set => 11
  | .map => 12
  | .record => 13
  | .fn => 14

namespace Value

variable {m : Type → Type} [Monad m]

/-- Entries are compared by key, then by value. -/
@[specialize] def compareEntries (cmp : Value → Value → m Ordering) (a b : Value × Value) :
    m Ordering :=
  thenM (cmp a.1 b.1) (cmp a.2 b.2)

/-- Comparison, the parts being related by `rel`. -/
@[specialize] def compareBy (mem : Memory m) (rel : Relations m) (a b : Value) : m Ordering :=
  match a, b with
  | .nil, .nil => pure .eq
  | .bool x, .bool y => pure (compare x y)
  | .number x, .number y => pure (x.compare y)
  | .symbol x, .symbol y => pure (x.compare y)
  | .tag x, .tag y => pure (x.compare y)
  | .str x, .str y => pure (compare x y)
  | .quote x, .quote y => pure (x.compare y)
  | .ref x, .ref y => pure (compare x.path y.path)
  | .tuple x, .tuple y =>
    thenM (rel.compare x.body.tag y.body.tag) (lexM rel.compare x.body.extra y.body.extra)
  | .recur x, .recur y => lexM rel.compare x.body y.body
  | .list x, .list y =>
    if isSame .list x y then pure .eq else lexM rel.compare x.body.shown.toList y.body.shown.toList
  | .set x, .set y =>
    thenM (pure (compare x.body.size y.body.size)) do
      let xs ← sortM .eight rel.compare x.body.elements
      let ys ← sortM .eight rel.compare y.body.elements
      lexM rel.compare xs ys
  | .map x, .map y =>
    if isSame .map x y then pure .eq
    else do
      let s ← mem.storageOf rel.keyed x
      let t ← mem.storageOf rel.keyed y
      thenM (pure (compare s.size t.size)) do
        let xs ← sortM .eight (compareEntries rel.compare) s.entries
        let ys ← sortM .eight (compareEntries rel.compare) t.entries
        lexM (compareEntries rel.compare) xs ys
  | .record x, .record y =>
    thenM (pure (x.body.name.compare y.body.name))
      (thenM (pure (lexBy Tag.compare x.body.names y.body.names))
        (lexM rel.compare x.body.values y.body.values))
  | .fn f, .fn g => do
    let i ← mem.number f
    let j ← mem.number g
    return compare i j
  | a, b => pure (compare a.kind.rank b.kind.rank)

/-- Literals before composite values. -/
def literalFirst (a b : Value) : Ordering := compare b.isLiteral a.isLiteral

end Value
end DynVal
