import DynVal.Value.Order

/-!
# Views of values

A view is what a value shows when it is handed out: its parts down to the last one, with nothing
of how they are stored. The elements of a set and the entries of a map stand in order. A reference
is shown by its path, a function by its name, and implementation tables are shown with the record
or tuple that brings them along.

A view is taken at one moment: the order of functions that were never compared before is settled
by it and stays the same from then on.
-/

namespace DynVal

inductive View where
  | nil
  | bool (b : Bool)
  | number (n : Number)
  | str (s : String)
  | tag (t : Tag)
  | symbol (s : Symbol)
  | quote (c : Cirru)
  | ref (path : String)
  | fn (name : String)
  | recur (args : List View)
  | list (items : List View)
  | map (entries : List (View × View))
  | set (elements : List View)
  | record (r : Record View)
  | tuple (t : Tuple View)
deriving Inhabited

namespace View

variable {m : Type → Type} [Monad m]

def ofEntry (view : Value → m View) (e : Value × Value) : m (View × View) := do
  let k ← view e.1
  let v ← view e.2
  return (k, v)

def ofField (view : Value → m View) (f : Tag × Value) : m (Tag × View) := do
  let v ← view f.2
  return (f.1, v)

mutual

/-- A record with its fields shown, and then its tables. -/
@[specialize] def ofRecord (view : Value → m View) : Record Value → m (Record View)
  | ⟨name, fields, impls⟩ => do
    let fields ← fields.mapM (ofField view)
    let impls ← ofTables view impls
    return ⟨name, fields, impls⟩
termination_by structural r => r

@[specialize] def ofTables (view : Value → m View) : List (Record Value) → m (List (Record View))
  | [] => pure []
  | r :: rs => do
    let r ← ofRecord view r
    let rs ← ofTables view rs
    return r :: rs
termination_by structural rs => rs

end

def ofTuple (view : Value → m View) (t : Tuple Value) : m (Tuple View) := do
  let tag ← view t.tag
  let extra ← t.extra.mapM view
  let impls ← ofTables view t.impls
  return ⟨tag, extra, impls⟩

/-- The view of a value down to a depth, the entries of maps being read by `entries`. -/
@[specialize] def ofValue (entries : MapNode → m (List (Value × Value)))
    (cmp : Value → Value → m Ordering) : Nat → Value → m View
  | 0, _ => pure .nil
  | d + 1, v =>
    let view := ofValue entries cmp d
    match v with
    | .nil => return .nil
    | .bool b => return .bool b
    | .number n => return .number n
    | .str s => return .str s
    | .tag t => return .tag t
    | .symbol s => return .symbol s
    | .quote c => return .quote c
    | .ref r => return .ref r.path
    | .fn f => return .fn f.name
    | .recur r => return .recur (← r.body.mapM view)
    | .list l => return .list (← l.body.shown.toList.mapM view)
    | .map x => do
      let es ← entries x
      let sorted ← sortM .four (Value.compareEntries cmp) es
      return .map (← sorted.mapM (ofEntry view))
    | .set s => do
      let sorted ← sortM .four cmp s.body.elements
      return .set (← sorted.mapM view)
    | .record r => return .record (← ofRecord view r.body)
    | .tuple t => return .tuple (← ofTuple view t.body)

end View
end DynVal
