import DynVal.Maps

/-!
# Record and tuple values

Records and tuples at nodes, and the relation of records to maps: a map fills a record when its
keys, taken as field names, cover all fields.
-/

namespace DynVal

/-- The field that a key names: tags, strings and symbols do by their text. -/
def fieldTag (op : String) : Value → Except Error Tag
  | .tag t => .ok t
  | .str s => .ok ⟨s⟩
  | .symbol s => .ok ⟨s.name⟩
  | v => .error (.typeMismatch op "tag" v.typeName)

/-- Entries with their keys read as field names; the first key that names none is an error. -/
def fieldPairs (op : String) : List (Value × Value) → Except Error (List (Tag × Value))
  | [] => .ok []
  | e :: es =>
    match fieldTag op e.1 with
    | .error err => .error err
    | .ok t =>
      match fieldPairs op es with
      | .error err => .error err
      | .ok ps => .ok ((t, e.2) :: ps)

namespace Record

/-- The values of some entries under a record's shape. -/
def fromEntries (r : Record Value) (es : List (Value × Value)) : Except Error (Record Value) :=
  match fieldPairs "record from map" es with
  | .ok ps => r.withFields ps
  | .error e => .error e

/-- The fields as entries of a map. -/
def entries (r : Record Value) : List (Value × Value) := r.fields.map fun f => (.tag f.1, f.2)

/-- Replaces values one after the other; the first key that names no field is an error. -/
def assocAll (op : String) (r : Record Value) : List (Value × Value) → Except Error (Record Value)
  | [] => .ok r
  | e :: es =>
    match fieldTag op e.1 with
    | .error err => .error err
    | .ok t =>
      match r.assoc t e.2 with
      | .error err => .error err
      | .ok s => assocAll op s es

end Record

namespace RecordNode

def make (name : Tag) (pairs : List (Tag × Value)) : Op RecordNode := do
  Op.share (← Op.ofExcept (Record.ofPairs name pairs))

/-- A record of that shape with nil for every value. -/
def schema (name : Tag) (fields : List Tag) : Op RecordNode :=
  make name (fields.map fun t => (t, .nil))

def withImpls (r : RecordNode) (impls : List (Record Value)) : Op RecordNode :=
  Op.share (r.body.withImpls impls)

def get (r : RecordNode) (t : Tag) : Op Value := Op.ofExcept (r.body.get t)

def assoc (r : RecordNode) (t : Tag) (v : Value) : Op RecordNode := do
  Op.share (← Op.ofExcept (r.body.assoc t v))

def withPairs (r : RecordNode) (ps : List (Tag × Value)) : Op RecordNode := do
  Op.share (← Op.ofExcept (r.body.withPairs ps))

/-- A record with the values of a map or of another record. -/
def fromData (r : RecordNode) (v : Value) : Op RecordNode := do
  match v with
  | .map m => Op.share (← Op.ofExcept (r.body.fromEntries (← MapNode.entries m)))
  | .record s => Op.share (← Op.ofExcept (r.body.withFields s.body.fields))
  | _ => Op.fail (.typeMismatch "record from map" "map or record" v.typeName)

def toMap (r : RecordNode) : Op MapNode := MapNode.make r.body.entries

/-- Binds the entries of a map; the record itself serves where there are none. -/
def merge (r : RecordNode) (m : MapNode) : Op RecordNode := do
  match ← MapNode.entries m with
  | [] => return r
  | es => Op.share (← Op.ofExcept (r.body.assocAll "merge" es))

end RecordNode

namespace TupleNode

def make (tag : Value) (extra : List Value) (impls : List (Record Value)) : Op TupleNode :=
  Op.share ⟨tag, extra, impls⟩

def get (t : TupleNode) (i : Nat) : Op Value := Op.ofExcept (t.body.get i)

def assoc (t : TupleNode) (i : Nat) (v : Value) : Op TupleNode := do
  Op.share (← Op.ofExcept (t.body.assoc i v))

end TupleNode
end DynVal
