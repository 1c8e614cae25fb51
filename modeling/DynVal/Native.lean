import DynVal.Script

/-!
# Native procedures

The procedures that a program finds in the native table: cells, the wire format, methods and the
host. Each checks the number of its arguments first and their kinds next, and acts only then.
-/

namespace DynVal.Native

variable {α : Type}

def wrongCount (name : String) (expected : Nat) (args : List Value) : Script α :=
  Script.fail (.arity name expected args.length)

def wrongKind (op expected : String) (v : Value) : Script α :=
  Script.fail (.typeMismatch op expected v.typeName)

def expectRef (op : String) (v : Value) : Script Ref :=
  match v with
  | .ref r => pure r
  | _ => wrongKind op "ref" v

def expectStr (op : String) (v : Value) : Script String :=
  match v with
  | .str s => pure s
  | _ => wrongKind op "string" v

def expectFn (op : String) (v : Value) : Script Fn :=
  match v with
  | .fn f => pure f
  | _ => wrongKind op "fn" v

def expectPath (op : String) (v : Value) : Script String :=
  match v with
  | .str s => pure s
  | .tag t => pure t.name
  | .symbol s => pure s.name
  | _ => wrongKind op "string path" v

/-! ## Cells -/

/-- A new cell at a counted path. -/
def ref : Body
  | [v] => do return .ref (← Script.request (.create v))
  | args => wrongCount "ref" 1 args

/-- The cell at a named path; one that is there keeps its content. -/
def defref : Body
  | [path, v] => do
    let p ← expectPath "defref" path
    return .ref (← Script.request (.define p v))
  | args => wrongCount "defref" 2 args

def isRef : Body
  | [v] => pure (.bool v.asRef?.isSome)
  | args => wrongCount "ref?" 1 args

def deref : Body
  | [v] => do Script.request (.content (← expectRef "deref" v))
  | args => wrongCount "deref" 1 args

def reset : Body
  | [r, v] => do
    Script.reset (← expectRef "reset!" r) v
    return v
  | args => wrongCount "reset!" 2 args

def addWatch : Body
  | [r, key, f] => do
    let cell ← expectRef "add-watch" r
    let tag ← Script.ofExcept (fieldTag "add-watch" key)
    let fn ← expectFn "add-watch" f
    Script.request (.watch cell tag fn)
    return r
  | args => wrongCount "add-watch" 3 args

def removeWatch : Body
  | [r, key] => do
    let cell ← expectRef "remove-watch" r
    let tag ← Script.ofExcept (fieldTag "remove-watch" key)
    let _ ← Script.request (.unwatch cell tag)
    return r
  | args => wrongCount "remove-watch" 2 args

/-! ## The wire format -/

/-- The encoded form of a value, as quoted code. -/
def toWire : Body
  | [v] => do return .quote (← Script.request (.encode v))
  | args => wrongCount "to-cirru-edn" 1 args

/-- The value that quoted code describes. -/
def fromWire : Body
  | [.quote c] => Script.request (.decode c)
  | [v] => wrongKind "extract-cirru-edn" "quote" v
  | args => wrongCount "extract-cirru-edn" 1 args

/-! ## Methods -/

def invoke : Body
  | obj :: key :: args => do
    let tag ← Script.ofExcept (fieldTag "&invoke" key)
    Script.invoke obj tag.name args
  | args => wrongCount "&invoke" 2 args

/-- The methods of a value, as tags. -/
def methodsOf : Body
  | [obj] => do
    let tables ← Script.request (.tables obj)
    Script.request (.list ((Dispatch.methodNames tables).map fun m => .tag (Tag.parse m)))
  | args => wrongCount "&methods-of" 1 args

/-! ## The host -/

/-- The text of a resource. -/
def readFile : Body
  | [path] => do
    let name ← expectStr "read-file" path
    let bytes ← Script.ofExcept (← Script.request (.readFile name))
    match Utf8.decode bytes with
    | .ok text => pure (.str text)
    | .error fault => Script.fail (.host ("read " ++ name ++ ": " ++ fault.message))
  | args => wrongCount "read-file" 1 args

def writeFile : Body
  | [path, content] => do
    let name ← expectStr "write-file" path
    let text ← expectStr "write-file" content
    Script.ofExcept (← Script.request (.writeFile name (Utf8.encode text)))
    return .nil
  | args => wrongCount "write-file" 2 args

/-- An environment variable, nil where it is not set. -/
def getEnv : Body
  | [v] => do
    let name ← expectStr "get-env" v
    match ← Script.request (.envVar name) with
    | some text => pure (.str text)
    | none => pure .nil
  | args => wrongCount "get-env" 1 args

def now : Body
  | [] => do return .number (Number.ofNat (← Script.request .clock))
  | args => wrongCount "now!" 0 args

def quit : Body
  | [.number n] =>
    if n.isIntegral then .halt (.exit n.toInt32)
    else wrongKind "quit!" "integer exit code" (.number n)
  | [v] => wrongKind "quit!" "integer exit code" v
  | args => wrongCount "quit!" 1 args

/-- All native procedures by name. -/
def procedures : List (String × Body) :=
  [("ref", ref), ("defref", defref), ("ref?", isRef), ("deref", deref), ("reset!", reset),
   ("add-watch", addWatch), ("remove-watch", removeWatch), ("to-cirru-edn", toWire),
   ("extract-cirru-edn", fromWire), ("&invoke", invoke), ("&methods-of", methodsOf),
   ("read-file", readFile), ("write-file", writeFile), ("get-env", getEnv), ("now!", now),
   ("quit!", quit)]

end DynVal.Native
