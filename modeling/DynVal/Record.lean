import DynVal.Name
import DynVal.Error
import DynVal.Sorting

/-!
# Records

A record has a name, fields in strictly increasing order of their text, and implementation tables
that method dispatch consults. Name and fields are its shape and never change once it is made;
`ofPairs` sorts the fields and refuses a repeated one, every other operation only replaces values
or tables. A field is found by bisection.
-/

namespace DynVal

structure Record (ν : Type) where
  name : Tag
  fields : List (Tag × ν)
  impls : List (Record ν)

namespace Record

variable {ν : Type}

/-- The first tag that stands twice in a row. -/
def repeated? : List Tag → Option Tag
  | s :: t :: ts => if s = t then some s else repeated? (t :: ts)
  | _ => none

/-- A record without tables from its fields in any order. -/
def ofPairs (name : Tag) (pairs : List (Tag × ν)) : Except Error (Record ν) :=
  let fields := sortBy (fun p q => p.1.compare q.1) pairs
  match repeated? (fields.map (·.1)) with
  | some t => .error (.duplicateField ("record " ++ name.text) t.text)
  | none => .ok ⟨name, fields, []⟩

def names (r : Record ν) : List Tag := r.fields.map (·.1)

def values (r : Record ν) : List ν := r.fields.map (·.2)

def size (r : Record ν) : Nat := r.fields.length

def withImpls (r : Record ν) (impls : List (Record ν)) : Record ν := { r with impls := impls }

/-- Looks for a tag in the part `[low, high)` of an ordered array by halving it. -/
def bisect (names : Array Tag) (t : Tag) : Nat → Nat → Nat → Option Nat
  | 0, _, _ => none
  | fuel + 1, low, high =>
    if low < high then
      let mid := (low + high) / 2
      match t.compare (names.getD mid default) with
      | .eq => some mid
      | .lt => bisect names t fuel low mid
      | .gt => bisect names t fuel (mid + 1) high
    else none

/-- The place of a field. -/
def position? (r : Record ν) (t : Tag) : Option Nat :=
  bisect r.names.toArray t r.size 0 r.size

def contains (r : Record ν) (t : Tag) : Bool := (r.position? t).isSome

def get? (r : Record ν) (t : Tag) : Option ν :=
  match r.position? t with
  | some i => r.values[i]?
  | none => none

def fieldTexts (r : Record ν) : List String := r.names.map Tag.text

def get (r : Record ν) (t : Tag) : Except Error ν :=
  match r.get? t with
  | some v => .ok v
  | none => .error (.missingKey "record get" t.text r.fieldTexts)

def unknownField (r : Record ν) (t : Tag) : Error :=
  .unknownField r.name.text t.text r.fieldTexts

/-- Replaces the value at a place. -/
def setAt (r : Record ν) (i : Nat) (v : ν) : Record ν :=
  { r with fields := r.fields.modify i fun p => (p.1, v) }

def assoc (r : Record ν) (t : Tag) (v : ν) : Except Error (Record ν) :=
  match r.position? t with
  | some i => .ok (r.setAt i v)
  | none => .error (r.unknownField t)

/-- One slot for each field, to be filled in any order. -/
def slots (r : Record ν) : List (Option ν) := r.fields.map fun _ => none

/-- Closes the slots; the first empty one is reported. -/
def close : List (Tag × ν) → List (Option ν) → Except Error (List (Tag × ν))
  | [], _ => .ok []
  | p :: ps, some v :: vs =>
    match close ps vs with
    | .ok rest => .ok ((p.1, v) :: rest)
    | .error e => .error e
  | p :: _, _ => .error (.missingKey "record fill" p.1.text [])

/-- The record with new values, given by slots. -/
def withSlots (r : Record ν) (vs : List (Option ν)) : Except Error (Record ν) :=
  match close r.fields vs with
  | .ok fields => .ok { r with fields := fields }
  | .error e => .error e

/-- Fills slots from pairs; an unknown field and one that comes twice are refused. -/
def fill (r : Record ν) : List (Option ν) → List (Tag × ν) → Except Error (List (Option ν))
  | vs, [] => .ok vs
  | vs, p :: ps =>
    match r.position? p.1 with
    | none => .error (r.unknownField p.1)
    | some i =>
      match vs[i]? with
      | some (some _) => .error (.duplicateField ("record " ++ r.name.text) p.1.text)
      | _ => fill r (vs.set i (some p.2)) ps

/-- The record with new values from pairs that name every field once. -/
def withPairs (r : Record ν) (ps : List (Tag × ν)) : Except Error (Record ν) :=
  match r.fill r.slots ps with
  | .ok vs => r.withSlots vs
  | .error e => .error e

/-- Fills slots from pairs; a later pair wins and unknown fields are passed over. -/
def overlay (r : Record ν) : List (Option ν) → List (Tag × ν) → List (Option ν)
  | vs, [] => vs
  | vs, p :: ps =>
    match r.position? p.1 with
    | none => overlay r vs ps
    | some i => overlay r (vs.set i (some p.2)) ps

/-- The record with new values from pairs that name every field. -/
def withFields (r : Record ν) (ps : List (Tag × ν)) : Except Error (Record ν) :=
  r.withSlots (r.overlay r.slots ps)

/-- Same name and same fields. -/
def sameShape (r s : Record ν) : Bool := r.name == s.name && r.names == s.names

end Record
end DynVal
