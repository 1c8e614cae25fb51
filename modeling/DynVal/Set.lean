import DynVal.Storage

/-!
# Sets

A set stores its elements as keys without values. Operations that may find nothing to do answer
`none`, for which the set that they were given serves.
-/

namespace DynVal

structure Set (κ : Type) where
  members : Storage κ Unit
deriving Inhabited

namespace Set

variable {κ : Type}

def empty : Set κ := ⟨.empty⟩

def elements (s : Set κ) : List κ := s.members.keys

def size (s : Set κ) : Nat := s.members.size

def isEmpty (s : Set κ) : Bool := s.size == 0

variable {m : Type → Type} [Monad m] (keyed : Keyed m κ)

@[specialize] def contains (s : Set κ) (x : κ) : m Bool := s.members.contains keyed x

@[specialize] def include? (s : Set κ) (x : κ) : m (Option (Set κ)) := do
  if ← s.contains keyed x then return none else return some ⟨← s.members.assoc keyed x ()⟩

@[specialize] def exclude? (s : Set κ) (x : κ) : m (Option (Set κ)) := do
  if ← s.contains keyed x then return some ⟨← s.members.dissoc keyed x⟩ else return none

/-- Adds elements in turn, each unless it is there; `none` if all of them are. -/
@[specialize] def includeAll? (s : Set κ) (done : Option (Set κ)) :
    List κ → m (Option (Set κ))
  | [] => pure done
  | x :: xs => do
    match ← (done.getD s).include? keyed x with
    | some t => includeAll? s (some t) xs
    | none => includeAll? s done xs

def ofList (xs : List κ) : m (Set κ) := do return (← includeAll? keyed empty none xs).getD empty

/-- The given set with the other's elements added, `none` if all of them are there. -/
def union? (s t : Set κ) : m (Option (Set κ)) := includeAll? keyed s none t.elements

def union (s t : Set κ) : m (Set κ) := do return (← s.union? keyed t).getD s

def intersection (s t : Set κ) : m (Set κ) := do
  ofList keyed (← s.elements.filterM fun x => t.contains keyed x)

def difference (s t : Set κ) : m (Set κ) := do
  ofList keyed (← s.elements.filterM fun x => do return !(← t.contains keyed x))

end Set
end DynVal
