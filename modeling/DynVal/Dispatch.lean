import DynVal.Assoc
import DynVal.Store

/-!
# Method dispatch

A method of a value is an entry of one of its implementation tables. Records and tuples bring
their own tables; a value without any uses the default tables registered for its kind. The first
table that has the method decides.
-/

namespace DynVal

namespace Store

/-- The default tables of a kind. -/
def defaults (s : Store) (k : Kind) : List (Record Value) := (Assoc.get? s.tables k).getD []

/-- The tables that a value brings along. -/
def ownTables : Value → List (Record Value)
  | .record r => r.body.impls
  | .tuple t => t.body.impls
  | _ => []

/-- The tables in which methods of a value are looked up. -/
def tablesOf (s : Store) (v : Value) : List (Record Value) :=
  match ownTables v with
  | [] => s.defaults v.kind
  | own => own

end Store

namespace Dispatch

/-- The entry of the first table that has the method. -/
def method? (tables : List (Record Value)) (method : String) : Option Value :=
  tables.findSome? fun t => t.get? ⟨method⟩

/-- Drops each text that equals the one before it. -/
def dropRepeats : List String → List String
  | s :: t :: ts => if s = t then dropRepeats (t :: ts) else s :: dropRepeats (t :: ts)
  | ts => ts

/-- All methods of some tables in order, each once. -/
def methodNames (tables : List (Record Value)) : List String :=
  dropRepeats (sortBy compare (tables.flatMap fun t => t.names.map Tag.name))

/-- Installs the default tables of a kind in place of earlier ones. -/
def register (k : Kind) (tables : List (Record Value)) : Op Unit :=
  modify fun s => { s with tables := Assoc.put k tables s.tables }

/-- Drops the default tables of a kind and returns them. -/
def unregister (k : Kind) : Op (Option (List (Record Value))) := do
  let s ← get
  set { s with tables := Assoc.erase s.tables k }
  return Assoc.get? s.tables k

end Dispatch
end DynVal
