import DynVal.Store

/-!
# List values

Lists are sequences at nodes. Their elements are read through the backings in the store, and every
operation makes a node of its own except where the list that it was given serves.
-/

namespace DynVal.ListNode

def make (xs : List Value) : Op ListNode := do
  Op.share (← Op.withBackings fun bs => Sequence.ofArray bs xs.toArray)

def get? (l : ListNode) (i : Nat) : Op (Option Value) := return l.body.get? (← Op.backings) i

def nth (l : ListNode) (i : Nat) : Op Value := do Op.ofExcept (l.body.nth (← Op.backings) i)

def first? (l : ListNode) : Op (Option Value) := return l.body.first? (← Op.backings)

def rest (l : ListNode) : Op ListNode := Op.shareOr l l.body.rest?

def toList (l : ListNode) : Op (List Value) := return l.body.toList (← Op.backings)

def append (l : ListNode) (x : Value) : Op ListNode := do
  Op.share (← Op.withBackings fun bs => l.body.append bs x)

def prepend (l : ListNode) (x : Value) : Op ListNode := do
  Op.share (l.body.prepend (← Op.backings) x)

def assoc (l : ListNode) (i : Nat) (x : Value) : Op ListNode := do
  Op.share (← Op.ofExcept (l.body.assoc (← Op.backings) i x))

def assocBefore (l : ListNode) (i : Nat) (x : Value) : Op ListNode := do
  Op.share (← Op.ofExcept (l.body.assocBefore (← Op.backings) i x))

def assocAfter (l : ListNode) (i : Nat) (x : Value) : Op ListNode := do
  Op.share (← Op.ofExcept (l.body.assocAfter (← Op.backings) i x))

def dissoc (l : ListNode) (i : Nat) : Op ListNode := do
  Op.share (← Op.ofExcept (l.body.dissoc (← Op.backings) i))

def slice (l : ListNode) (start stop : Nat) : Op ListNode := do
  Op.share (← Op.ofExcept (l.body.slice start stop))

/-- Where one list is empty the other serves. -/
def concat (l k : ListNode) : Op ListNode := do
  if k.body.isEmpty then return l
  else if l.body.isEmpty then return k
  else Op.share (← Op.withBackings fun bs => l.body.concat bs k.body)

def reverse (l : ListNode) : Op ListNode := do Op.share (l.body.reverse (← Op.backings))

/-- A list with other elements in the same kind of storage. -/
def refill (l : ListNode) (xs : List Value) : Op ListNode := do
  Op.share (← Op.withBackings fun bs => l.body.refill bs xs.toArray)

end DynVal.ListNode
