/-!
# Numbers

64-bit floating-point numbers as bit patterns, of which a single one stands for NaN. A finite
number is `± significand * 2 ^ exponent`; everything below is integer arithmetic on these two
parts.

* `Number.same` is numeric equality: the two zeros are equal, NaN differs from itself.
* `Number.compare` is a total order that agrees with `same` where `same` holds and puts NaN last.
* `Number.truncate` is the integer part; `Number.isIntegral` says that nothing was cut off.
-/

namespace DynVal

/-- A 64-bit floating-point number; of the NaN patterns only one is admitted. -/
structure Number where
  bits : UInt64
  one_nan : 0x7ff0000000000000 < bits &&& 0x7fffffffffffffff → bits = 0x7ff8000000000000
deriving DecidableEq

namespace Number

def nan : Number := ⟨0x7ff8000000000000, fun _ => rfl⟩

/-- The number with these bits, any NaN pattern being read as the one NaN. -/
def ofBits (b : UInt64) : Number :=
  if h : 0x7ff0000000000000 < b &&& 0x7fffffffffffffff then nan else ⟨b, fun h' => absurd h' h⟩

/-- The sign bit, set for the negative zero as well. -/
def negative (n : Number) : Bool := 0x8000000000000000 ≤ n.bits

/-- The bits below the sign; among numbers of one sign a larger magnitude has larger bits. -/
def magnitude (n : Number) : Nat := (n.bits &&& 0x7fffffffffffffff).toNat

def isNaN (n : Number) : Bool := 0x7ff0000000000000 < n.magnitude

def isInfinite (n : Number) : Bool := n.magnitude == 0x7ff0000000000000

def isFinite (n : Number) : Bool := n.magnitude < 0x7ff0000000000000

def isZero (n : Number) : Bool := n.magnitude == 0

/-- The lowest of the bits that hold the scale, and the value of the leading one that a number with
scale bits has without storing it. -/
def leadingOne : Nat := 0x10000000000000

/-- The eleven bits that hold the scale. -/
def scaleBits (n : Number) : Nat := n.magnitude / leadingOne

def significand (n : Number) : Nat :=
  if n.scaleBits = 0 then n.magnitude else n.magnitude % leadingOne + leadingOne

def exponent (n : Number) : Int :=
  if n.scaleBits = 0 then -1074 else (n.scaleBits : Int) - 1075

/-- Numeric equality. -/
def same (a b : Number) : Bool :=
  !a.isNaN && !b.isNaN && (a.bits == b.bits || (a.isZero && b.isZero))

/-- Rank of the bit pattern on a line on which the negative zero lies below the positive one. -/
def rank (n : Number) : Int := if n.negative then -(n.magnitude : Int) - 1 else n.magnitude

/-- Numeric order, NaN above all others. -/
def compare (a b : Number) : Ordering :=
  if a.same b then .eq else Ord.compare a.rank b.rank

/-- Finite and without a fractional part. -/
def isIntegral (n : Number) : Bool :=
  n.isFinite && (0 ≤ n.exponent || n.significand % (1 <<< n.exponent.natAbs) == 0)

/-- The integer part of a finite number. -/
def truncate (n : Number) : Int :=
  let whole : Nat :=
    if 0 ≤ n.exponent then n.significand <<< n.exponent.natAbs
    else n.significand >>> n.exponent.natAbs
  if n.negative then -whole else whole

/-- Strictly below zero; the negative zero is not. -/
def isBelowZero (n : Number) : Bool := n.negative && !n.isZero && !n.isNaN

/-- The nearest integer within `low` and `high`. -/
def clamp (low high i : Int) : Int := max low (min high i)

/-- Positions are counted in 64 bits: larger numbers stand for the last position. -/
def toPosition (n : Number) : Nat := (clamp 0 0xffffffffffffffff n.truncate).toNat

def toInt64 (n : Number) : Int := clamp (-0x8000000000000000) 0x7fffffffffffffff n.truncate

def toInt32 (n : Number) : Int := clamp (-0x80000000) 0x7fffffff n.truncate

end Number
end DynVal
