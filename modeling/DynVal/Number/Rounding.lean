import DynVal.Number

/-!
# Rounding to a number

`Number.ofRatio` gives the number nearest to a quotient of naturals, the even neighbour of two
equally near ones, and infinity above the largest finite number. Integers, decimal literals and
the successor of a number are all rounded by it.
-/

namespace DynVal.Number

/-- The binary exponent at which `num / den` has 53 binary digits, or the least one there is. -/
def gridExponent (num den : Nat) : Int :=
  let guess : Int := (num.log2 : Int) - den.log2 - 53
  let fits : Bool :=
    if 0 ≤ guess then num < den <<< (guess.natAbs + 53)
    else num <<< guess.natAbs < den <<< 53
  max (-1074) (if fits then guess else guess + 1)

/-- The nearest natural to `num / den`, a half going to the even neighbour. -/
def roundQuotient (num den : Nat) : Nat :=
  let whole := num / den
  let twice := 2 * (num % den)
  if twice < den then whole
  else if den < twice then whole + 1
  else whole + whole % 2

/-- The magnitude bits of the number nearest to `num / den`. A significand that rounds up to the
next power of two carries into the scale bits. -/
def roundedMagnitude (num den : Nat) : Nat :=
  if num = 0 then 0
  else
    let q := gridExponent num den
    let m :=
      if 0 ≤ q then roundQuotient num (den <<< q.natAbs)
      else roundQuotient (num <<< q.natAbs) den
    min 0x7ff0000000000000 ((q + 1074).toNat * leadingOne + m)

/-- The number nearest to `± num / den`. -/
def ofRatio (negative : Bool) (num den : Nat) : Number :=
  ofBits (UInt64.ofNat (roundedMagnitude num den + if negative then 0x8000000000000000 else 0))

def ofInt (i : Int) : Number := ofRatio (i < 0) i.natAbs 1

def ofNat (n : Nat) : Number := ofRatio false n 1

/-- The number nearest to `n + 1`; NaN and the infinities stay. -/
def succ (n : Number) : Number :=
  if n.isFinite then
    let unit : Nat := 1 <<< 1074
    let scaled : Nat := n.significand <<< (n.exponent + 1074).toNat
    let sum : Int := (if n.negative then -(scaled : Int) else scaled) + unit
    ofRatio (sum < 0) sum.natAbs unit
  else n

end DynVal.Number
