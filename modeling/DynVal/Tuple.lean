import DynVal.Record

/-!
# Tuples

A tag and further values, with implementation tables for method dispatch. Position 0 is the tag.
-/

namespace DynVal

structure Tuple (ν : Type) where
  tag : ν
  extra : List ν
  impls : List (Record ν)

namespace Tuple

variable {ν : Type}

def size (t : Tuple ν) : Nat := t.extra.length + 1

/-- All values, the tag first. -/
def items (t : Tuple ν) : List ν := t.tag :: t.extra

def get (t : Tuple ν) (i : Nat) : Except Error ν :=
  match t.items[i]? with
  | some v => .ok v
  | none => .error (.index "tuple get" i t.size)

/-- Replaces the value at a position, keeping the tables. -/
def assoc (t : Tuple ν) (i : Nat) (v : ν) : Except Error (Tuple ν) :=
  match i with
  | 0 => .ok { t with tag := v }
  | i + 1 =>
    if i < t.extra.length then .ok { t with extra := t.extra.set i v }
    else .error (.index "tuple assoc" (i + 1) t.size)

end Tuple
end DynVal
