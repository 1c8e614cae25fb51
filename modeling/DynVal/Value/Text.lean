import DynVal.Value.Memory
import DynVal.Number.Decimal

/-!
# Printed form of values

The text of a value as people read it. A reference is printed with the current content of its
cell, so the text depends on the cells, and there is none where a cell holds a value that leads
back to itself: the descent then runs out of depth (`none`). The layers of a map are combined when
it is printed, which looks at its keys.
-/

namespace DynVal.Value

/-- Texts, each after a space. -/
def spaced (ts : List String) : String := ts.foldl (fun acc t => acc ++ " " ++ t) ""

/-- A string is printed as the word that starts with a bar. -/
def strText (s : String) : String := String.ofList (Text.word ('|' :: s.toList))

variable {m : Type → Type} [Monad m]

/-- A pair of texts between parentheses. -/
def entryText (text : Value → OptionT m String) (e : Value × Value) : OptionT m String := do
  let k ← text e.1
  let v ← text e.2
  return "(" ++ k ++ " " ++ v ++ ")"

def fieldText (text : Value → OptionT m String) (f : Tag × Value) : OptionT m String := do
  let v ← text f.2
  return "(" ++ f.1.text ++ " " ++ v ++ ")"

/-- Text down to a depth, the entries of maps being read by `entries`. -/
def textAt (entries : MapNode → m (List (Value × Value))) (content : Ref → Value) :
    Nat → Value → OptionT m String
  | 0, _ => failure
  | d + 1, v =>
    let text := textAt entries content d
    match v with
    | .nil => return "nil"
    | .bool b => return if b then "true" else "false"
    | .number n => return n.text
    | .str s => return strText s
    | .tag t => return t.text
    | .symbol s => return s.text
    | .quote c => return "(quote " ++ c.text ++ ")"
    | .ref r => do
      let t ← text (content r)
      return "(&ref " ++ r.path ++ " " ++ t ++ ")"
    | .fn f => return "(&fn " ++ f.name ++ ")"
    | .recur r => do
      let ts ← r.body.mapM text
      return "(&recur" ++ spaced ts ++ ")"
    | .list l => do
      let ts ← l.body.shown.toList.mapM text
      return "([]" ++ spaced ts ++ ")"
    | .map x => do
      let es ← OptionT.lift (entries x)
      let ts ← es.mapM (entryText text)
      return "(\x7b\x7d" ++ spaced ts ++ ")"
    | .set s => do
      let ts ← s.body.elements.mapM text
      return "(#\x7b\x7d" ++ spaced ts ++ ")"
    | .record r => do
      let ts ← r.body.fields.mapM (fieldText text)
      return "(%\x7b\x7d " ++ r.body.name.text ++ spaced ts ++ ")"
    | .tuple t => do
      let tag ← text t.body.tag
      let extra ← t.body.extra.mapM text
      return "(:: " ++ tag ++ spaced extra ++ ")"

/-- Texts between commas. -/
def listed (ts : List String) : String := String.intercalate ", " ts

def bindingText (text : Value → OptionT m String) (e : Value × Value) : OptionT m String := do
  let k ← text e.1
  let v ← text e.2
  return k ++ ": " ++ v

/-- The form for inspection, which shows more of what a value is made of. Its parts are printed
by `text`. -/
def inspectWith (entries : MapNode → m (List (Value × Value))) (content : Ref → Value)
    (text : Value → OptionT m String) (v : Value) : OptionT m String :=
  match v with
  | .tag t => return "Tag(" ++ t.text ++ ")"
  | .symbol s => return "Symbol(" ++ s.text ++ ")"
  | .ref r => do
    let t ← text (content r)
    return "#<Ref " ++ r.path ++ ": " ++ t ++ ">"
  | .fn f => return "#<fn " ++ f.name ++ ">"
  | .list l => do
    let ts ← l.body.shown.toList.mapM text
    return "[" ++ listed ts ++ "]"
  | .map x => do
    let es ← OptionT.lift (entries x)
    let ts ← es.mapM (bindingText text)
    return "\x7b" ++ listed ts ++ "\x7d"
  | .set s => do
    let ts ← s.body.elements.mapM text
    return "\x7b" ++ listed ts ++ "\x7d"
  | _ => text v

end DynVal.Value
