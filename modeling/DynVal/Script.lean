import DynVal.Wire.Decode
import DynVal.Wire.Encode
import DynVal.Dispatch
import DynVal.Text.Utf8

/-!
# Scripts

What a function does when it is called, as a tree of requests. A script ends with a result, halts,
asks the store for an `Action` and goes on with the reply, or calls a function and goes on with
the value or error that comes back. Since scripts are data, a statement about all functions, such
as the watchers of a cell, is a statement about all scripts.

`run` carries a script out. Only calls use up depth, and a script whose calls nest deeper halts
without end.
-/

namespace DynVal

/-- One step on the store. -/
inductive Action where
  | content (r : Ref)
  | swap (r : Ref) (v : Value)
  | watch (r : Ref) (key : Tag) (f : Fn)
  | unwatch (r : Ref) (key : Tag)
  | create (v : Value)
  | define (path : String) (v : Value)
  | list (xs : List Value)
  | equal (a b : Value)
  | text (v : Value)
  | tables (v : Value)
  | native (name : String)
  | note (name : String) (vs : List Value)
  | encode (v : Value)
  | decode (c : Cirru)
  | readFile (name : String)
  | writeFile (name : String) (bytes : List UInt8)
  | envVar (name : String)
  | clock

/-- What an action is answered with. -/
def Action.Reply : Action → Type
  | .content _ => Value
  | .swap .. => Value × List Fn
  | .watch .. => Unit
  | .unwatch .. => Bool
  | .create _ => Ref
  | .define .. => Ref
  | .list _ => Value
  | .equal .. => Bool
  | .text _ => String
  | .tables _ => List (Record Value)
  | .native _ => Option Fn
  | .note .. => Unit
  | .encode _ => Cirru
  | .decode _ => Value
  | .readFile _ => Except Error (List UInt8)
  | .writeFile .. => Except Error Unit
  | .envVar _ => Option String
  | .clock => Nat

/-- Puts a request to the host, which keeps it in mind. -/
def Op.askHost {α : Type} (q : Host.Request) (answer : Host → List Host.Request → α) : Op α :=
  modifyGet fun s => (answer s.host s.host.asked, { s with host.asked := q :: s.host.asked })

/-- Carries an action out. -/
def Action.perform : (a : Action) → Op a.Reply
  | .content r => r.content
  | .swap r v => r.swap v
  | .watch r key f => r.watch key f
  | .unwatch r key => r.unwatch key
  | .create v => Cells.create v
  | .define path v => Cells.define path v
  | .list xs => Value.ofList xs
  | .equal a b => Op.equal a b
  | .text v => Op.text v
  | .tables v => return (← get).tablesOf v
  | .native name => return Assoc.get? (← get).natives name
  | .note name vs => Op.note name vs
  | .encode v => Wire.encode v
  | .decode c => Wire.decode .strict c
  | .readFile name => Op.askHost (.read name) fun host asked => host.read asked name
  | .writeFile name bytes =>
    Op.askHost (.write name bytes) fun host asked => host.write asked name bytes
  | .envVar name => Op.askHost (.envVar name) fun host asked => host.envVar asked name
  | .clock => Op.askHost .clock Host.clock

inductive Script (α : Type) where
  | done (a : α)
  | halt (h : Halt)
  | act (a : Action) (next : a.Reply → Script α)
  | call (f : Fn) (args : List Value) (next : Except Error Value → Script α)

/-- What a function is: a script for each list of arguments. -/
abbrev Body := List Value → Script Value

namespace Script

variable {α β : Type}

def bind : Script α → (α → Script β) → Script β
  | .done a, k => k a
  | .halt h, _ => .halt h
  | .act a next, k => .act a fun r => (next r).bind k
  | .call f args next, k => .call f args fun r => (next r).bind k

instance : Monad Script where
  pure := .done
  bind := bind

def fail (e : Error) : Script α := .halt (.error e)

def ofExcept : Except Error α → Script α
  | .ok a => .done a
  | .error e => fail e

def request (a : Action) : Script a.Reply := .act a .done

/-- Calls a function and passes its error on. -/
def apply (f : Fn) (args : List Value) : Script Value := .call f args ofExcept

/-- Calls functions in turn with the same arguments, up to the first error. -/
def notify (args : List Value) : List Fn → Script Unit
  | [] => .done ()
  | f :: fs => do
    let _ ← apply f args
    notify args fs

/-- Stores a value in a cell and tells the functions that watched it at that moment, passing the
new value and the old one. -/
def reset (r : Ref) (v : Value) : Script Unit := do
  let (old, fs) ← request (.swap r v)
  notify [v, old] fs

/-- How a value's type is named when a method is missing: records and tuples by name and tag. -/
def typeLabel : Value → Script String
  | .record r => pure r.body.name.text
  | .tuple t => request (.text t.body.tag)
  | v => pure v.typeName

/-- Calls a method of a value with the value as first argument. -/
def invoke (obj : Value) (method : String) (args : List Value) : Script Value := do
  let tables ← request (.tables obj)
  match Dispatch.method? tables method with
  | some (.fn f) => apply f (obj :: args)
  | some v => fail (.typeMismatch "invoke" "fn" v.typeName)
  | none =>
    let value ← request (.text obj)
    let label ← typeLabel obj
    fail (.noMethod method value label (Dispatch.methodNames tables))

/-- Calls the native procedure of that name. -/
def callNative (name : String) (args : List Value) : Script Value := do
  match ← request (.native name) with
  | some f => apply f args
  | none => fail (.missingKey "call native" name [])

/-- The results of a function on some values, nil where it fails, behind those found so far,
which stand in reverse. -/
def mapOnto (f : Fn) (done : List Value) : List Value → Script (List Value)
  | [] => .done done.reverse
  | x :: xs => .call f [x] fun r => mapOnto f (r.toOption.getD .nil :: done) xs

def mapValues (f : Fn) (xs : List Value) : Script (List Value) := mapOnto f [] xs

/-- Carries a script out where `callee` answers calls. An error of a call is handed back, any
other halt ends the script. -/
def exec (callee : Fn → List Value → Op Value) : Script α → Op α
  | .done a => pure a
  | .halt h => throw h
  | .act a next => do exec callee (next (← a.perform))
  | .call f args next => fun s =>
    match callee f args s with
    | (.ok v, s) => exec callee (next (.ok v)) s
    | (.error (.error e), s) => exec callee (next (.error e)) s
    | (.error h, s) => (.error h, s)

/-- Calls a function, with calls nested at most to a depth. -/
def callWithin (bodies : Fn → Body) : Nat → Fn → List Value → Op Value
  | 0, _, _ => throw .endless
  | d + 1, f, args => exec (callWithin bodies d) (bodies f args)

/-- Carries a script out, with calls nested at most to a depth. -/
def run (bodies : Fn → Body) (depth : Nat) (script : Script α) : Op α :=
  exec (callWithin bodies depth) script

end Script
end DynVal
