import DynVal.Access
import DynVal.Cells
import DynVal.Number.Literal

/-!
# Decoding values

The value that a Cirru tree describes. A leaf is told by its mark, a list by the marker at its
head. Strict decoding refuses a leaf that it does not recognise, permissive decoding takes it as a
string. Every `atom` node gets a cell of its own at a counted path, once its content has been
decoded.
-/

namespace DynVal.Wire

/-- What to do with a leaf that is not recognised. -/
inductive Mode where
  | strict
  | permissive
deriving DecidableEq

def undecodable {α : Type} (node : Cirru) (reason : String) : Op α :=
  Op.fail (.undecodable node.text reason)

/-- A digit, or a minus sign and a digit, at the start. -/
def looksNumeric : List Char → Bool
  | '-' :: c :: _ => c.isDigit
  | c :: _ => c.isDigit
  | [] => false

/-- A leaf that has no mark: a number, or whatever the mode makes of it. -/
def decodeBare (mode : Mode) (s : String) : Except Error Value :=
  match if looksNumeric s.toList then Number.parse? s.toList else none with
  | some n => if n.isFinite then .ok (.number n) else .error (.undecodable s "number out of range")
  | none =>
    match mode with
    | .permissive => .ok (.str s)
    | .strict => .error (.undecodable s "unrecognised leaf")

def decodeLeaf (mode : Mode) (s : String) : Except Error Value :=
  if s = "nil" then .ok .nil
  else if s = "true" then .ok (.bool true)
  else if s = "false" then .ok (.bool false)
  else
    match s.toList with
    | [] => .error (.undecodable "\"\"" "empty leaf")
    | '|' :: cs => .ok (.str (String.ofList cs))
    | '\"' :: cs => .ok (.str (String.ofList cs))
    | ':' :: cs => .ok (.tag ⟨String.ofList cs⟩)
    | '\'' :: cs => .ok (.symbol ⟨String.ofList cs⟩)
    | _ => decodeBare mode s

/-- The tag that a leaf in the header or an entry of a record names. -/
def tagOf? : Cirru → Option Tag
  | .leaf s =>
    match s.toList with
    | ':' :: cs => some ⟨String.ofList cs⟩
    | _ => none
  | .list _ => none

def expectTag (node : Cirru) (what : String) (c : Cirru) : Op Tag :=
  match tagOf? c with
  | some t => pure t
  | none => undecodable node (what ++ " must be a tag, got " ++ c.text)

def notAPair {α : Type} (node entry : Cirru) : Op α :=
  undecodable node ("expected a pair, got " ++ entry.text)

mutual

def decode (mode : Mode) : Cirru → Op Value
  | .leaf s => Op.ofExcept (decodeLeaf mode s)
  | .list [] => Op.fail (.undecodable "()" "empty node")
  | .list (.list h :: rest) => undecodable (.list (.list h :: rest)) "head must be a leaf"
  | .list (.leaf marker :: rest) =>
    let node : Cirru := .list (.leaf marker :: rest)
    if marker = "[]" then do Value.ofList (← decodeAll mode rest)
    else if marker = "#\x7b\x7d" then do Value.ofElements (← decodeAll mode rest)
    else if marker = "\x7b\x7d" then do Value.ofPairs (← decodePairs mode node rest)
    else if marker = "%\x7b\x7d" then
      match rest with
      | [] => undecodable node "record needs a name"
      | name :: entries => do
        let tag ← expectTag node "record name" name
        return .record (← RecordNode.make tag (← decodeFields mode node entries))
    else if marker = "::" then
      match rest with
      | [] => undecodable node "tuple needs a tag"
      | head :: extra => do
        let tag ← decode mode head
        Value.ofTuple tag (← decodeAll mode extra) []
    else if marker = "quote" then
      match rest with
      | [code] => pure (.quote code)
      | _ => undecodable node "quote expects 1 argument"
    else if marker = "atom" then
      match rest with
      | [inner] => do return .ref (← Cells.create (← decode mode inner))
      | _ => undecodable node "atom expects 1 argument"
    else if marker = "do" then
      match rest with
      | [inner] => decode mode inner
      | _ => undecodable node "do expects 1 argument"
    else undecodable node ("unknown head marker " ++ marker)
termination_by structural c => c

def decodeAll (mode : Mode) : List Cirru → Op (List Value)
  | [] => pure []
  | c :: cs => do
    let v ← decode mode c
    return v :: (← decodeAll mode cs)
termination_by structural cs => cs

/-- Entries of a map: lists of two trees. -/
def decodePairs (mode : Mode) (node : Cirru) : List Cirru → Op (List (Value × Value))
  | [] => pure []
  | .list [k, v] :: cs => do
    let key ← decode mode k
    let value ← decode mode v
    return (key, value) :: (← decodePairs mode node cs)
  | c :: _ => notAPair node c
termination_by structural cs => cs

/-- Entries of a record: lists of a tag and a tree. -/
def decodeFields (mode : Mode) (node : Cirru) : List Cirru → Op (List (Tag × Value))
  | [] => pure []
  | .list [k, v] :: cs => do
    let tag ← expectTag node "record field" k
    let value ← decode mode v
    return (tag, value) :: (← decodeFields mode node cs)
  | c :: _ => notAPair node c
termination_by structural cs => cs

end

end DynVal.Wire
