import DynVal.Native
import DynVal.Routine

/-!
# Worlds

A store together with the functions that exist. A world starts with the native procedures in its
table; functions are added one by one, and an operation or a script runs in a world and leaves its
changes in it.
-/

namespace DynVal

structure World where
  store : Store
  bodies : Array Body

namespace World

/-- Calls may nest this deep. -/
def callDepth : Nat := 1000000

/-- The body of a function, one that gives nil if there is none. -/
def bodyIn (bodies : Array Body) (f : Fn) : Body := bodies.getD f.id fun _ => pure .nil

/-- Runs an operation on the store. -/
def perform {α : Type} (w : World) (op : Op α) : Except Halt α × World :=
  match w with
  | ⟨store, bodies⟩ =>
    let r := op store
    (r.1, ⟨r.2, bodies⟩)

/-- Carries a script out. -/
def run {α : Type} (w : World) (script : Script α) : Except Halt α × World :=
  w.perform (Script.run (bodyIn w.bodies) callDepth script)

/-- Adds a function that has no identity number yet. -/
def addLazyFn (w : World) (name : String) (body : Body) : Fn × World :=
  match w with
  | ⟨store, bodies⟩ => (⟨bodies.size, name⟩, ⟨store, bodies.push body⟩)

/-- Adds a function and draws its identity number, so that functions are ordered by age. -/
def addFn (w : World) (name : String) (body : Body) : Fn × World :=
  match w.addLazyFn name body with
  | (f, ⟨store, bodies⟩) => (f, ⟨store.draw f, bodies⟩)

/-- Puts a procedure into the native table, in place of one of that name. -/
def defineNative (w : World) (name : String) (body : Body) : World :=
  let (f, w) := w.addLazyFn name body
  { w with store.natives := Assoc.put name f w.store.natives }

/-- A world with the native procedures. -/
def initial (host : Host) : World :=
  Native.procedures.foldl (fun w p => w.defineNative p.1 p.2) ⟨.initial host, #[]⟩

/-- Puts a function into the native table under a name of its own. -/
def defineNativeFn (w : World) (name : String) (f : Fn) : World :=
  w.defineNative name fun args => Script.apply f args

def clearNatives (w : World) : World := { w with store.natives := [] }

/-- The names of the native procedures in order. -/
def nativeNames (w : World) : List String := sortBy compare (w.store.natives.map (·.1))

/-- Replaces each element of a list by the result of a function. -/
def mapList (w : World) (l : ListNode) (f : Fn) : Except Halt ListNode × World :=
  match w.perform (ListNode.toList l) with
  | (.error h, w) => (.error h, w)
  | (.ok xs, w) =>
    match w.run (Script.mapValues f xs) with
    | (.error h, w) => (.error h, w)
    | (.ok ys, w) => w.perform (ListNode.refill l ys)

/-- The log, which is empty afterwards. -/
def takeLog (w : World) : List (String × List View) × World :=
  (w.store.log.toList, { w with store.log := #[] })

end World
end DynVal
