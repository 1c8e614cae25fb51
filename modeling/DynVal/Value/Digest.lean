import DynVal.Digest
import DynVal.Value.Order

/-!
# Hashes of values

A 64-bit hash of the structure of a value. Each kind folds its parts into a seed of its own. What a
set or map holds is sorted before it is folded, so that neither storage nor insertion order counts.
A function is hashed by its identity number, which it gets when it is first looked at. Values that
the order does not tell apart have the same hash.
-/

namespace DynVal

namespace Digest

/-- The hash of a kind without parts. -/
def seed (k : Kind) : UInt64 := mix 0 (UInt64.ofNat k.rank)

def ofBool (b : Bool) : UInt64 := mix (seed .bool) (if b then 1 else 0)

/-- Both zeros have the hash of the positive one. -/
def ofNumber (n : Number) : UInt64 := mix (seed .number) (if n.isZero then 0 else n.bits)

def ofTag (t : Tag) : UInt64 := mixText (seed .tag) t.name

mutual

def ofCirru : Cirru → UInt64
  | .leaf s => mixText 1 s
  | .list xs => ofAll 2 xs

def ofAll (h : UInt64) : List Cirru → UInt64
  | [] => h
  | x :: xs => ofAll (mix h (ofCirru x)) xs

end

variable {m : Type → Type} [Monad m]

/-- Folds the hashes of values into a hash one after the other. -/
@[specialize] def foldM (hash : Value → m UInt64) : UInt64 → List Value → m UInt64
  | h, [] => pure h
  | h, x :: xs => do foldM hash (mix h (← hash x)) xs

@[specialize] def foldFieldsM (hash : Value → m UInt64) :
    UInt64 → List (Tag × Value) → m UInt64
  | h, [] => pure h
  | h, f :: fs => do foldFieldsM hash (mix (mix h (ofTag f.1)) (← hash f.2)) fs

/-- Folds the hashes of keys and values into a hash one entry after the other. -/
@[specialize] def foldEntriesM (hash : Value → m UInt64) :
    UInt64 → List (Value × Value) → m UInt64
  | h, [] => pure h
  | h, e :: es => do
    let k ← hash e.1
    let v ← hash e.2
    foldEntriesM hash (mix (mix h k) v) es

end Digest

namespace Value

open Digest

variable {m : Type → Type} [Monad m]

/-- Hash, the parts being related by `rel`. -/
@[specialize] def hashBy (mem : Memory m) (rel : Relations m) (v : Value) : m UInt64 :=
  match v with
  | .nil => pure (seed .nil)
  | .bool b => pure (ofBool b)
  | .number n => pure (ofNumber n)
  | .str s => pure (mixText (seed .str) s)
  | .tag t => pure (ofTag t)
  | .symbol s => pure (mixText (seed .symbol) s.name)
  | .quote c => pure (mix (seed .quote) (ofCirru c))
  | .ref r => pure (mixText (seed .ref) r.path)
  | .fn f => do
    let i ← mem.number f
    return mix (seed .fn) (UInt64.ofNat i)
  | .recur r => foldM rel.hash (seed .recur) r.body
  | .list l => mem.hashOf l.node (foldM rel.hash (seed .list) l.body.shown.toList)
  | .map x => mem.hashOf x.node do
    let s ← mem.storageOf rel.keyed x
    foldEntriesM rel.hash (seed .map) (← sortM .eight (compareEntries rel.compare) s.entries)
  | .set s => mem.hashOf s.node do
    foldM rel.hash (seed .set) (← sortM .eight rel.compare s.body.elements)
  | .record r =>
    mem.hashOf r.node (foldFieldsM rel.hash (mix (seed .record) (ofTag r.body.name)) r.body.fields)
  | .tuple t => mem.hashOf t.node (foldM rel.hash (seed .tuple) t.body.items)

end Value
end DynVal
