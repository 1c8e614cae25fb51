import DynVal.Store

/-!
# Encoding values

A value as a Cirru tree. Scalars are leaves that start with a mark of their kind, collections are
lists that start with a marker. The entries of maps and fields of records stand in order, those
with a literal value first; the elements of sets stand in order. A reference is encoded by the
current content of its cell, without its path.

Functions, recur markers and numbers that are not finite have no encoded form; the first one met
is reported. A value that leads back to itself through its cell has none either, and the descent
runs out of depth.
-/

namespace DynVal.Wire

variable {m : Type → Type} [Monad m]

def leaf (s : String) : Cirru := .leaf s

/-- Order of map entries: literal values first, then by key. -/
def compareEntries (cmp : Value → Value → m Ordering) (a b : Value × Value) : m Ordering :=
  thenM (pure (Value.literalFirst a.2 b.2)) (cmp a.1 b.1)

/-- Order of record fields: literal values first, then by name. -/
def compareFields (a b : Tag × Value) : Ordering :=
  (Value.literalFirst a.2 b.2).then (a.1.compare b.1)

/-- Two trees as one list. -/
def encodeEntry (enc : Value → ExceptT Halt m Cirru) (e : Value × Value) :
    ExceptT Halt m Cirru := do
  let k ← enc e.1
  let v ← enc e.2
  return .list [k, v]

def encodeField (enc : Value → ExceptT Halt m Cirru) (f : Tag × Value) :
    ExceptT Halt m Cirru := do
  let v ← enc f.2
  return .list [leaf f.1.text, v]

/-- Refuses a value, whose text may be missing. -/
def unencodable (text : Value → OptionT m String) (v : Value) : ExceptT Halt m Cirru := do
  match ← (text v).run with
  | some t => throw (.error (.unencodable v.typeName t))
  | none => throw .endless

/-- Encoding down to a depth, the entries of maps being read by `entries`. -/
def encodeAt (entries : MapNode → m (List (Value × Value))) (cmp : Value → Value → m Ordering)
    (content : Ref → Value) (text : Value → OptionT m String) :
    Nat → Value → ExceptT Halt m Cirru
  | 0, _ => throw .endless
  | d + 1, v =>
    let enc := encodeAt entries cmp content text d
    match v with
    | .nil => return leaf "nil"
    | .bool b => return leaf (if b then "true" else "false")
    | .number n => if n.isFinite then return leaf n.text else unencodable text v
    | .str s => return leaf ("|" ++ s)
    | .tag t => return leaf t.text
    | .symbol s => return leaf s.text
    | .quote c => return .list [leaf "quote", c]
    | .ref r => do
      let c ← enc (content r)
      return .list [leaf "atom", c]
    | .list l => do
      let cs ← l.body.shown.toList.mapM enc
      return .list (leaf "[]" :: cs)
    | .map x => do
      let es ← ExceptT.lift (entries x)
      let sorted ← ExceptT.lift (sortM .eight (compareEntries cmp) es)
      let cs ← sorted.mapM (encodeEntry enc)
      return .list (leaf "\x7b\x7d" :: cs)
    | .set s => do
      let sorted ← ExceptT.lift (sortM .eight cmp s.body.elements)
      let cs ← sorted.mapM enc
      return .list (leaf "#\x7b\x7d" :: cs)
    | .record r => do
      let cs ← (sortBy compareFields r.body.fields).mapM (encodeField enc)
      return .list (leaf "%\x7b\x7d" :: leaf r.body.name.text :: cs)
    | .tuple t => do
      let cs ← t.body.items.mapM enc
      return .list (leaf "::" :: cs)
    | .fn _ => unencodable text v
    | .recur _ => unencodable text v

/-- The encoded form of a value in a store. -/
def encode (v : Value) : Op Cirru := do
  let s ← get
  let encoded := encodeAt Memo.entries Memo.compare s.content s.text (s.reach v) v
  match ← Op.withMemo encoded.run with
  | .ok c => return c
  | .error h => throw h

end DynVal.Wire
