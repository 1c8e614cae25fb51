import DynVal.Storage

/-!
# Maps

Immutable maps. A flat map is a storage of entries; a chain layers a front map over a back map
without combining them, entries of the front whose value is the same as `skip` being left out.
Looking up goes through the layers, everything else combines them first (`resolved`).
-/

namespace DynVal

/-- A map whose keys and values are of one type. -/
inductive Map (α : Type) where
  | flat (storage : Storage α α)
  | chain (front : Map α) (skip : Option α) (back : Map α) (depth : Nat)

namespace Map

variable {α : Type}

/-- Two slices with at most this many entries together are merged at once. -/
def mergeLimit : Nat := 24

/-- Greatest number of chain layers in a map. -/
def depthLimit : Nat := 5

def empty : Map α := .flat .empty

instance : Inhabited (Map α) := ⟨.empty⟩

/-- Number of chain layers, as recorded when the chain was made. -/
def depth : Map α → Nat
  | .flat _ => 0
  | .chain _ _ _ d => d

def isChain : Map α → Bool
  | .flat _ => false
  | .chain .. => true

def isTree : Map α → Bool
  | .flat s => s.isTree
  | .chain .. => false

variable {m : Type → Type} [Monad m] (keyed : Keyed m α)

/-- Whether a merge leaves an entry with this value out. -/
@[specialize] def isSkipped (skip : Option α) (v : α) : m Bool :=
  match skip with
  | some s => keyed.same v s
  | none => pure false

/-- Lays entries over a tree, those with a skipped value apart. -/
@[specialize] def overlay (skip : Option α) (t : Buckets (α × α)) :
    List (α × α) → m (Buckets (α × α))
  | [] => pure t
  | e :: es => do
    if ← isSkipped keyed skip e.2 then overlay skip t es
    else overlay skip (← Storage.insert keyed t e.1 e.2) es

/-- The entries with all layers combined: the back goes into a tree, then the front over it. -/
@[specialize] def resolved : Map α → m (Storage α α)
  | .flat s => pure s
  | .chain front skip back _ => do
    let lower ← back.resolved
    let t ← lower.toTree keyed
    let upper ← front.resolved
    return .tree (← overlay keyed skip t upper.entries)

def entries (x : Map α) : m (List (α × α)) := do
  let s ← x.resolved keyed
  return s.entries

def size (x : Map α) : m Nat := do
  let s ← x.resolved keyed
  return s.size

/-- Looks into the front layer first and takes a skipped value there for an absent one. -/
@[specialize] def get? : Map α → α → m (Option α)
  | .flat s, k => s.get? keyed k
  | .chain front skip back _, k => do
    match ← front.get? k with
    | some v => if ← isSkipped keyed skip v then back.get? k else return some v
    | none => back.get? k

def contains (x : Map α) (k : α) : m Bool := do
  let s ← x.resolved keyed
  s.contains keyed k

def assoc (x : Map α) (k v : α) : m (Map α) := do
  let s ← x.resolved keyed
  return .flat (← s.assoc keyed k v)

def dissoc (x : Map α) (k : α) : m (Map α) := do
  let s ← x.resolved keyed
  return .flat (← s.dissoc keyed k)

def ofPairs (ps : List (α × α)) : m (Map α) := do
  return .flat (← Storage.ofPairs keyed ps)

/-! ## Merging -/

/-- Lays `front` over `back`, or combines them where the layers would be too many. -/
def layer (back front : Map α) (skip : Option α) : m (Map α) :=
  let x : Map α := .chain front skip back (back.depth + front.depth + 1)
  if depthLimit < x.depth then do return .flat (← x.resolved keyed) else pure x

/-- Binds the keys of entries one after the other, those with a skipped value apart; `none` if
all are left out. -/
def assocAll? (s : Storage α α) (skip : Option α) (done : Option (Storage α α)) :
    List (α × α) → m (Option (Storage α α))
  | [] => pure done
  | e :: es => do
    if ← isSkipped keyed skip e.2 then assocAll? s skip done es
    else
      let t ← (done.getD s).assoc keyed e.1 e.2
      assocAll? s skip (some t) es

/-- Entries of `front` override those of `back`, those with a skipped value apart; `none` when
`back` itself serves. -/
def merge? (back front : Map α) (skip : Option α) : m (Option (Map α)) :=
  match front, back with
  | .flat (.slice fs), .flat (.slice bs) =>
    if fs.isEmpty then pure none
    else if fs.length + bs.length ≤ mergeLimit then do
      let s ← assocAll? keyed (.slice bs) skip none fs
      return s.map .flat
    else some <$> layer keyed back front skip
  | _, _ => some <$> layer keyed back front skip

def merge (back front : Map α) (skip : Option α) : m (Map α) := do
  return (← merge? keyed back front skip).getD back

/-! ## Two maps beside each other -/

/-- The entries of a map whose key another map has, or of those whose key it lacks. The layers of
the other map are combined only if there is a key to look for. -/
def entriesWhere (present : Bool) (x other : Map α) : m (List (α × α)) := do
  match ← x.entries keyed with
  | [] => return []
  | es =>
    let s ← other.resolved keyed
    es.filterM fun e => do return (← s.contains keyed e.1) == present

/-- The entries whose key another map lacks. -/
def diffNew (x other : Map α) : m (Map α) := do
  ofPairs keyed (← entriesWhere keyed false x other)

def diffKeys (x other : Map α) : m (List α) := do
  return (← entriesWhere keyed false x other).map (·.1)

def commonKeys (x other : Map α) : m (List α) := do
  return (← entriesWhere keyed true x other).map (·.1)

end Map
end DynVal
