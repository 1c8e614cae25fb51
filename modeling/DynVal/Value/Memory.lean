import DynVal.Value.Identity

/-!
# Relations between values and what they remember

Equality, order and hash of values need each other: equality looks keys up by hash, a hash folds
the contents of sets and maps in their order, and the order of two maps combines their layers,
which looks keys up. Each is therefore written for given relations between the parts
(`Relations`), and the three are tied together afterwards.

What the relations know from before, and what they leave behind, is a `Memory`: the identity
numbers by which functions are ordered, the hashes of nodes, and what the layers of maps come to
when they are combined. A memory that knows nothing of nodes and learns nothing (`ofRank`) gives
the relations as such.
-/

namespace DynVal

/-- Where identity numbers come from, and what is known of nodes. -/
structure Memory (m : Type → Type) where
  number : Fn → m Nat
  known : Nat → m (Option UInt64)
  learn : Nat → UInt64 → m Unit
  combined? : MapNode → m (Option (Storage Value Value))
  keep : MapNode → Storage Value Value → m Unit

/-- Equality, order and hash of values. -/
structure Relations (m : Type → Type) where
  equal : Value → Value → m Bool
  compare : Value → Value → m Ordering
  hash : Value → m UInt64

/-- Values as keys. -/
@[inline] def Relations.keyed {m : Type → Type} (rel : Relations m) : Keyed m Value :=
  ⟨rel.equal, rel.hash⟩

namespace Memory

variable {m : Type → Type} [Monad m]

/-- A memory that knows the numbers of all functions and nothing of nodes. -/
def ofRank (rank : Fn → Nat) : Memory m where
  number f := pure (rank f)
  known _ := pure none
  learn _ _ := pure ()
  combined? _ := pure none
  keep _ _ := pure ()

/-- The known hash of a node, or else the computed one, which is known from then on. -/
@[specialize] def hashOf (mem : Memory m) (node : Nat) (compute : m UInt64) : m UInt64 := do
  match ← mem.known node with
  | some h => return h
  | none =>
    let h ← compute
    mem.learn node h
    return h

/-- Whether two nodes have known hashes that differ. -/
@[specialize] def differ (mem : Memory m) (i j : Nat) : m Bool := do
  let x ← mem.known i
  let y ← mem.known j
  match x, y with
  | some g, some h => return g != h
  | _, _ => return false

/-- The storage of a map. The layers of a chain are combined once and kept from then on. -/
@[specialize] def storageOf (mem : Memory m) (keyed : Keyed m Value) (x : MapNode) :
    m (Storage Value Value) :=
  match x.body with
  | .flat s => pure s
  | .chain .. => do
    match ← mem.combined? x with
    | some s => return s
    | none =>
      let s ← x.body.resolved keyed
      mem.keep x s
      return s

end Memory
end DynVal
