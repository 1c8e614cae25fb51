import DynVal.Value.Digest
import DynVal.Value.Equality

/-!
# The relations between values

Equality, order and hash tied together by depth: on values below a bound each is given by all
three on values below the next smaller bound. A bound that suffices for two values may be read off
their parts (`Value.depth`), which gives equality, order and hash as functions of values alone, or
off their nodes (`Value.level`).
-/

namespace DynVal

variable {m : Type → Type} [Monad m]

/-- The relations on values whose depth is below a bound. -/
@[specialize] def relationsBelow (mem : Memory m) : Nat → Relations m
  | 0 => ⟨fun _ _ => pure false, fun _ _ => pure .eq, fun _ => pure 0⟩
  | d + 1 =>
    { equal := fun a b => Value.equalBy mem (relationsBelow mem d) a b
      compare := fun a b => Value.compareBy mem (relationsBelow mem d) a b
      hash := fun v => Value.hashBy mem (relationsBelow mem d) v }

namespace Value

/-- The order of values under given identity numbers. -/
def order (rank : Fn → Nat) (a b : Value) : Ordering :=
  Id.run ((relationsBelow (.ofRank rank) (max a.depth b.depth + 1)).compare a b)

/-- Equality under given identity numbers, by which the keys of trees were hashed. -/
def equal (rank : Fn → Nat) (a b : Value) : Bool :=
  Id.run ((relationsBelow (.ofRank rank) (max a.depth b.depth + 1)).equal a b)

/-- The hash under given identity numbers. -/
def digest (rank : Fn → Nat) (v : Value) : UInt64 :=
  Id.run ((relationsBelow (.ofRank rank) (v.depth + 1)).hash v)

end Value
end DynVal
