import DynVal.Ledger
import DynVal.Value.Relations
import DynVal.Value.View

/-!
# Identity numbers and what is known of nodes

Functions have no content by which they could be ordered. Each gets a number when it is first asked
for one and keeps it; the numbers count up, so functions are ordered by the time at which they were
first looked at. Once drawn, a number never changes, and no two functions share one.

The hash of a node is worked out once and known from then on, and so are the combined layers of a
map. A memo holds all three, and the relations between values run in it; how deep they may have to
go is read off the nodes of the values (`Value.level`).
-/

namespace DynVal

/-- The numbers given so far, by function, and the next one to give. -/
structure Numbering where
  next : Nat
  given : Ledger Nat
deriving Inhabited

namespace Numbering

def initial : Numbering := ⟨1, .empty⟩

def number? (ns : Numbering) (f : Fn) : Option Nat := ns.given.get? f.id

/-- The function's number, drawn now if it has none. -/
def draw (f : Fn) : StateM Numbering Nat := fun ns =>
  match ns.number? f with
  | some k => (k, ns)
  | none => (ns.next, ⟨ns.next + 1, ns.given.put f.id ns.next⟩)

end Numbering

/-- Combined layers are noted with the map that they belong to. -/
structure Memo where
  numbering : Numbering
  hashes : Ledger UInt64
  storages : Ledger (MapNode × Storage Value Value)
deriving Inhabited

namespace Memo

def initial : Memo := ⟨.initial, .empty, .empty⟩

/-- Draws a number in the numbering. -/
def draw (f : Fn) : StateM Memo Nat := fun ⟨numbering, hashes, storages⟩ =>
  let r := Numbering.draw f numbering
  (r.1, ⟨r.2, hashes, storages⟩)

def known (node : Nat) : StateM Memo (Option UInt64) := fun s => (s.hashes.get? node, s)

def learn (node : Nat) (h : UInt64) : StateM Memo Unit := fun ⟨numbering, hashes, storages⟩ =>
  ((), ⟨numbering, hashes.put node h, storages⟩)

def combined? (x : MapNode) : StateM Memo (Option (Storage Value Value)) := fun s =>
  match s.storages.get? x.node with
  | some (y, storage) => (if Value.isSame .map x y then some storage else none, s)
  | none => (none, s)

def keep (x : MapNode) (storage : Storage Value Value) : StateM Memo Unit :=
  fun ⟨numbering, hashes, storages⟩ => ((), ⟨numbering, hashes, storages.put x.node (x, storage)⟩)

def memory : Memory (StateM Memo) := ⟨draw, known, learn, combined?, keep⟩

def equal (a b : Value) : StateM Memo Bool :=
  Value.equalBy memory (relationsBelow memory (max a.level b.level)) a b

/-- Compares under the total order, drawing identity numbers where functions meet. -/
def compare (a b : Value) : StateM Memo Ordering :=
  Value.compareBy memory (relationsBelow memory (max a.level b.level)) a b

def hash (v : Value) : StateM Memo UInt64 :=
  Value.hashBy memory (relationsBelow memory v.level) v

/-- Values of any depth as keys. -/
def keyed : Keyed (StateM Memo) Value := ⟨equal, hash⟩

/-- The map without layers. -/
def flat (x : MapNode) : StateM Memo (Map Value) := return .flat (← memory.storageOf keyed x)

/-- Two maps to be held beside each other. The second is not looked into if the first is empty. -/
def flatPair (x y : MapNode) : StateM Memo (Map Value × Map Value) := do
  let a ← flat x
  if (← a.size keyed) == 0 then return (a, y.body) else return (a, ← flat y)

def entries (x : MapNode) : StateM Memo (List (Value × Value)) := do (← flat x).entries keyed

def sort (xs : List Value) : StateM Memo (List Value) := sortM .four compare xs

def sortEntries (es : List (Value × Value)) : StateM Memo (List (Value × Value)) :=
  sortM .four (Value.compareEntries compare) es

def view (v : Value) : StateM Memo View := View.ofValue entries compare (v.level + 1) v

end Memo
end DynVal
