import DynVal.Buckets

/-!
# Storage of entries

Entries of a key and a value over two kinds of storage: a slice is a short run of entries in
insertion order, a tree keeps any number of them in buckets by the hash of the key. A slice that
meets a key a second time keeps the key that it has, a tree takes the new one; both take the new
value.

What makes two keys the same and what the hash of a key is are parameters (`Keyed`), and both may
have effects, so it is part of an operation which keys it compares and hashes, and in what order.
A key need not be the same as itself; such a key is never found and is added again each time.
-/

namespace DynVal

/-- How keys are told apart and hashed. The stored key is the first argument of `same`. -/
structure Keyed (m : Type → Type) (κ : Type) where
  same : κ → κ → m Bool
  hash : κ → m UInt64

inductive Storage (κ ν : Type) where
  | slice (entries : List (κ × ν))
  | tree (buckets : Buckets (κ × ν))

namespace Storage

variable {κ ν : Type}

/-- Largest number of entries in a slice. -/
def sliceLimit : Nat := 16

def empty : Storage κ ν := .slice []

instance : Inhabited (Storage κ ν) := ⟨.empty⟩

def isTree : Storage κ ν → Bool
  | .slice _ => false
  | .tree _ => true

def entries : Storage κ ν → List (κ × ν)
  | .slice es => es
  | .tree t => t.toList

def size (s : Storage κ ν) : Nat := s.entries.length

def keys (s : Storage κ ν) : List κ := s.entries.map (·.1)

variable {m : Type → Type} [Monad m] (keyed : Keyed m κ)

/-! ## Runs of entries -/

/-- The value at the first entry with the key. -/
@[specialize] def valueIn (k : κ) : List (κ × ν) → m (Option ν)
  | [] => pure none
  | e :: es => do if ← keyed.same e.1 k then return some e.2 else valueIn k es

/-- Whether some entry has the key. -/
@[specialize] def isIn (k : κ) : List (κ × ν) → m Bool
  | [] => pure false
  | e :: es => do if ← keyed.same e.1 k then return true else isIn k es

/-- Gives the first entry with the key a new value; `none` if there is no such entry. -/
@[specialize] def rebind? (k : κ) (v : ν) : List (κ × ν) → m (Option (List (κ × ν)))
  | [] => pure none
  | e :: es => do
    if ← keyed.same e.1 k then return some ((e.1, v) :: es)
    else
      let rest ← rebind? k v es
      return rest.map (e :: ·)

/-- Puts an entry in the place of the first one with the key, or at the end. -/
@[specialize] def replace (k : κ) (v : ν) : List (κ × ν) → m (List (κ × ν))
  | [] => pure [(k, v)]
  | e :: es => do
    if ← keyed.same e.1 k then return (k, v) :: es
    else
      let rest ← replace k v es
      return e :: rest

/-- The entries without those that have the key. -/
@[specialize] def without (k : κ) : List (κ × ν) → m (List (κ × ν))
  | [] => pure []
  | e :: es => do
    if ← keyed.same e.1 k then without k es
    else
      let rest ← without k es
      return e :: rest

/-! ## Trees -/

/-- Binds a key in a tree. -/
@[specialize] def insert (t : Buckets (κ × ν)) (k : κ) (v : ν) : m (Buckets (κ × ν)) := do
  let h ← keyed.hash k
  let es ← replace keyed k v (t.bucket h)
  return t.put h es

/-- Binds the keys of some entries one after the other. -/
@[specialize] def insertAll (t : Buckets (κ × ν)) : List (κ × ν) → m (Buckets (κ × ν))
  | [] => pure t
  | e :: es => do insertAll (← insert keyed t e.1 e.2) es

/-- The entries in a tree. -/
@[specialize] def toTree : Storage κ ν → m (Buckets (κ × ν))
  | .slice es => insertAll keyed .empty es
  | .tree t => pure t

/-! ## Operations -/

/-- Binds the keys of some pairs in a slice one after the other. -/
@[specialize] def bindAll (es : List (κ × ν)) : List (κ × ν) → m (List (κ × ν))
  | [] => pure es
  | p :: ps => do
    match ← rebind? keyed p.1 p.2 es with
    | some es => bindAll es ps
    | none => bindAll (es ++ [p]) ps

/-- A slice if the pairs are few, whatever they have in common; later pairs win. -/
@[specialize] def ofPairs (ps : List (κ × ν)) : m (Storage κ ν) := do
  if ps.length ≤ sliceLimit then return .slice (← bindAll keyed [] ps)
  else return .tree (← insertAll keyed .empty ps)

@[specialize] def get? (s : Storage κ ν) (k : κ) : m (Option ν) := do
  match s with
  | .slice es => valueIn keyed k es
  | .tree t =>
    let h ← keyed.hash k
    valueIn keyed k (t.bucket h)

@[specialize] def contains (s : Storage κ ν) (k : κ) : m Bool := do
  match s with
  | .slice es => isIn keyed k es
  | .tree t =>
    let h ← keyed.hash k
    isIn keyed k (t.bucket h)

/-- Binds a key. A full slice becomes a tree when it gets a new key. -/
@[specialize] def assoc (s : Storage κ ν) (k : κ) (v : ν) : m (Storage κ ν) := do
  match s with
  | .slice es =>
    match ← rebind? keyed k v es with
    | some es => return .slice es
    | none =>
      if es.length < sliceLimit then return .slice (es ++ [(k, v)])
      else
        let t ← insertAll keyed .empty es
        return .tree (← insert keyed t k v)
  | .tree t => return .tree (← insert keyed t k v)

@[specialize] def dissoc (s : Storage κ ν) (k : κ) : m (Storage κ ν) := do
  match s with
  | .slice es => return .slice (← without keyed k es)
  | .tree t =>
    let h ← keyed.hash k
    let es ← without keyed k (t.bucket h)
    return .tree (t.put h es)

end Storage
end DynVal
