import DynVal.Memo
import DynVal.Registry
import DynVal.Value.Text

/-!
# The store

Everything that changes while values are used: the next node number, the backings of lists, the
memo of identity numbers and known nodes, the cells and the registry of their paths, the default
implementation tables, the table of native procedures, the host and the log.

An operation is a function on the store that gives a result or halts. What it did to the store
stays done when it halts. Besides failing with an `Error`, an operation may halt because the host
was told to exit, or because it has no end: a value that leads back to itself through its cell has
no printed or encoded form.
-/

namespace DynVal

structure Cell where
  path : String
  content : Value
  watchers : List (Tag × Fn)

/-- What the world outside may be asked for. -/
inductive Host.Request where
  | read (name : String)
  | write (name : String) (bytes : List UInt8)
  | envVar (name : String)
  | clock

/-- The world outside: named resources, environment variables and a clock in milliseconds. What it
answers may depend on all that it was asked before, the last request first. -/
structure Host where
  asked : List Host.Request
  read : List Host.Request → String → Except Error (List UInt8)
  write : List Host.Request → String → List UInt8 → Except Error Unit
  envVar : List Host.Request → String → Option String
  clock : List Host.Request → Nat
deriving Inhabited

structure Store where
  nodes : Nat
  backings : Backings Value
  memo : Memo
  cells : Array Cell
  registry : Registry
  paths : Nat
  tables : List (Kind × List (Record Value))
  natives : List (String × Fn)
  host : Host
  log : Array (String × List View)

def Store.initial (host : Host) : Store where
  nodes := 0
  backings := #[]
  memo := .initial
  cells := #[]
  registry := .empty
  paths := 0
  tables := []
  natives := []
  host := host
  log := #[]

/-- Why an operation has no result. -/
inductive Halt where
  | error (e : Error)
  | exit (code : Int)
  | endless
deriving DecidableEq

/-- An operation on the store. -/
abbrev Op (α : Type) := ExceptT Halt (StateM Store) α

/-- Draws the identity number of a function. -/
def Store.draw (s : Store) (f : Fn) : Store :=
  let memo := s.memo
  let s := { s with memo := .initial }
  { s with memo := (Memo.draw f memo).2 }

/-- The current content of a cell. -/
def Store.content (s : Store) (r : Ref) : Value :=
  match s.cells[r.cell]? with
  | some c => c.content
  | none => .nil

/-- A depth that no descent into a value passes unless it meets some cell twice. -/
def Store.reach (s : Store) (v : Value) : Nat :=
  s.cells.foldr (fun c n => c.content.level + 1 + n) (v.level + 2)

/-- The printed form of a value, if it has an end. -/
def Store.text (s : Store) (v : Value) : OptionT (StateM Memo) String :=
  Value.textAt Memo.entries s.content (s.reach v) v

namespace Op

def run {α : Type} (op : Op α) (s : Store) : Except Halt α × Store := op s

def fail {α : Type} (e : Error) : Op α := throw (.error e)

def ofExcept {α : Type} : Except Error α → Op α
  | .ok a => pure a
  | .error e => fail e

/-- A body at a node of its own. -/
def share {β : Type} (body : β) : Op (Shared β) := do
  let s ← get
  set { s with nodes := s.nodes + 1 }
  return ⟨s.nodes, body⟩

/-- The node that an operation was given, unless there is a new body. -/
def shareOr {β : Type} (old : Shared β) : Option β → Op (Shared β)
  | some body => share body
  | none => pure old

/-- Works on the backings of lists. -/
def withBackings {α : Type} (f : Backings Value → α × Backings Value) : Op α :=
  modifyGet fun s =>
    let bs := s.backings
    let s := { s with backings := #[] }
    let r := f bs
    (r.1, { s with backings := r.2 })

def backings : Op (Backings Value) := return (← get).backings

/-- Works on the memo. -/
def withMemo {α : Type} (f : StateM Memo α) : Op α :=
  modifyGet fun s =>
    let memo := s.memo
    let s := { s with memo := .initial }
    let r := f memo
    (r.1, { s with memo := r.2 })

def equal (a b : Value) : Op Bool := withMemo (Memo.equal a b)

/-- Compares under the total order, drawing identity numbers where functions meet. -/
def compare (a b : Value) : Op Ordering := withMemo (Memo.compare a b)

def sort (xs : List Value) : Op (List Value) := withMemo (Memo.sort xs)

def sortEntries (es : List (Value × Value)) : Op (List (Value × Value)) :=
  withMemo (Memo.sortEntries es)

def hash (v : Value) : Op UInt64 := withMemo (Memo.hash v)

def view (v : Value) : Op View := withMemo (Memo.view v)

def viewRecord (r : Record Value) : Op (Record View) := withMemo (View.ofRecord Memo.view r)

/-- Leaves a note in the log with values as they are shown now. -/
def note (name : String) (vs : List Value) : Op Unit := do
  let views ← withMemo (vs.mapM Memo.view)
  modify fun s => { s with log := s.log.push (name, views) }

/-- A text that may be missing for want of an end. -/
def finite (t : OptionT (StateM Memo) String) : Op String := do
  match ← withMemo t.run with
  | some t => return t
  | none => throw .endless

/-- The printed form of a value. -/
def text (v : Value) : Op String := do finite ((← get).text v)

/-- The form of a value for inspection. -/
def inspect (v : Value) : Op String := do
  let s ← get
  finite (Value.inspectWith Memo.entries s.content s.text v)

end Op
end DynVal
