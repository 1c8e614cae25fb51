import DynVal.Assoc
import DynVal.Store

/-!
# Cells

Mutable cells, the registry of their paths and their watchers. Two references are equal when their
paths are; a path is registered for one cell at a time, and a cell outlives its registration.

The watchers of a cell stand in the order in which their keys were first added. Setting a key
again replaces the function and keeps the place.
-/

namespace DynVal

/-- A path of the form that is handed out by counting. -/
def countedPath (n : Nat) : String := "ref:" ++ toString n

def Store.modifyCell (s : Store) (r : Ref) (f : Cell → Cell) : Store :=
  { s with cells := s.cells.modify r.cell f }

def Store.cell? (s : Store) (r : Ref) : Option Cell := s.cells[r.cell]?

/-- Adds a cell and registers it at its path. -/
def Store.addCell (s : Store) (c : Cell) : Store :=
  let slot := s.cells.size
  { s with cells := s.cells.push c, registry := s.registry.put c.path slot }

/-- The cell registered at a path. -/
def Store.refAt? (s : Store) (path : String) : Option Ref :=
  (s.registry.get? path).map fun cell => ⟨cell, path⟩

namespace Ref

def content (r : Ref) : Op Value := return (← get).content r

/-- Stores a value and returns the one it replaces with the functions that are to be told. -/
def swap (r : Ref) (v : Value) : Op (Value × List Fn) :=
  modifyGet fun s =>
    let found := s.cell? r
    let s := s.modifyCell r fun c => { c with content := v }
    match found with
    | some c => ((c.content, c.watchers.map (·.2)), s)
    | none => ((.nil, []), s)

def watch (r : Ref) (key : Tag) (f : Fn) : Op Unit :=
  modify fun s => s.modifyCell r fun c => { c with watchers := Assoc.put key f c.watchers }

/-- Removes a watcher; whether it was there. -/
def unwatch (r : Ref) (key : Tag) : Op Bool :=
  modifyGet fun s =>
    let found := s.cell? r
    let s := s.modifyCell r fun c => { c with watchers := Assoc.erase c.watchers key }
    match found with
    | some c => (Assoc.contains c.watchers key, s)
    | none => (false, s)

def watchKeys (r : Ref) : Op (List Tag) := do
  match (← get).cell? r with
  | some c => return c.watchers.map (·.1)
  | none => return []

end Ref

namespace Cells

/-- The next counted path. -/
def freshPath : Op String := do
  let s ← get
  set { s with paths := s.paths + 1 }
  return countedPath s.paths

/-- The cell at a path. A new one gets the value, one that is registered keeps its own. -/
def define (path : String) (v : Value) : Op Ref :=
  modifyGet fun s =>
    match s.refAt? path with
    | some r => (r, s)
    | none =>
      let r : Ref := ⟨s.cells.size, path⟩
      (r, s.addCell ⟨path, v, []⟩)

/-- A cell at the next counted path. -/
def create (v : Value) : Op Ref := do define (← freshPath) v

def lookup? (path : String) : Op (Option Ref) := return (← get).refAt? path

/-- Takes a path out of the registry; references to its cell go on working. -/
def remove? (path : String) : Op (Option Ref) := do
  let s ← get
  set { s with registry := s.registry.erase path }
  return s.refAt? path

end Cells
end DynVal
