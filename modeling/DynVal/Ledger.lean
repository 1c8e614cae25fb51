/-!
# Ledgers

What is known about numbered things: a place for each number, empty until it is written.
-/

namespace DynVal

structure Ledger (α : Type) where
  places : Array (Option α)
deriving Inhabited

namespace Ledger

variable {α : Type}

def empty : Ledger α := ⟨#[]⟩

def get? (l : Ledger α) (i : Nat) : Option α := l.places.getD i none

/-- Writes at a place, those before it that are not there yet staying empty. -/
def put (l : Ledger α) (i : Nat) (a : α) : Ledger α :=
  if i < l.places.size then ⟨l.places.setIfInBounds i (some a)⟩
  else ⟨(l.places ++ Array.replicate (i - l.places.size) none).push (some a)⟩

theorem get?_put (l : Ledger α) (i j : Nat) (a : α) :
    (l.put i a).get? j = if i = j then some a else l.get? j := by
  simp only [put, get?, Array.getD_eq_getD_getElem?]
  grind

end Ledger
end DynVal
