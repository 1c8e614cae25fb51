import DynVal.Number

/-!
# Decimal text of numbers

A finite number is written with the fewest digits that are read back as the same number, and of
those with the ones nearest to it, positionally and without an exponent.

`shortest` looks for the coarsest decimal grid `10 ^ p` that has a point among the reals that
round to the number (`Rounds`); only the number's two neighbours on the grid have to be tried.
-/

namespace DynVal.Number

/-- A positive number with the reals that round to it, as naturals over one denominator. The ends
belong to the interval when the significand is even. -/
structure Rounds where
  low : Nat
  value : Nat
  high : Nat
  den : Nat
  closed : Bool

/-- The interval reaches half way to both neighbours. Below a power of two the lower neighbour is
only half as far. -/
def rounds (n : Number) : Rounds :=
  let m := n.significand
  let down : Nat := if m = leadingOne ∧ 1 < n.scaleBits then 1 else 2
  let scale : Nat := if 0 ≤ n.exponent then 1 <<< n.exponent.natAbs else 1
  let den : Nat := if 0 ≤ n.exponent then 1 else 1 <<< n.exponent.natAbs
  { low := (4 * m - down) * scale
    value := 4 * m * scale
    high := (4 * m + 2) * scale
    den := 4 * den
    closed := m % 2 == 0 }

/-- Whether `c * 10 ^ p` rounds to the number; the grid step is `step / part`. -/
def Rounds.holds (r : Rounds) (step part c : Nat) : Bool :=
  let point := c * step * r.den
  if r.closed then r.low * part ≤ point && point ≤ r.high * part
  else r.low * part < point && point < r.high * part

/-- The point of the grid nearest to the number among those that round to it, a tie going up. -/
def Rounds.gridPoint? (r : Rounds) (p : Int) : Option Nat :=
  let step : Nat := if 0 ≤ p then Nat.pow 10 p.natAbs else 1
  let part : Nat := if 0 ≤ p then 1 else Nat.pow 10 p.natAbs
  let below := r.value * part / (step * r.den)
  let rest := r.value * part % (step * r.den)
  if r.holds step part below then
    if r.holds step part (below + 1) && step * r.den ≤ 2 * rest then some (below + 1)
    else some below
  else if r.holds step part (below + 1) then some (below + 1)
  else none

/-- The first grid with a point, from `p` downwards. -/
def Rounds.search (r : Rounds) : Nat → Int → Nat × Int
  | 0, p => (0, p)
  | n + 1, p =>
    match r.gridPoint? p with
    | some c => (c, p)
    | none => r.search n (p - 1)

/-- Digits `c` and power `p` with `c * 10 ^ p` the shortest text of a positive finite number. The
search starts above the number, and seventeen digits always suffice. -/
def shortest (n : Number) : Nat × Int :=
  let r := n.rounds
  r.search 24 (((r.value.log2 : Int) - r.den.log2 + 1) * 1233 / 4096 + 2)

/-- `c * 10 ^ p` written out. -/
def positional (c : Nat) (p : Int) : List Char :=
  let digits := Nat.toDigits 10 c
  let places := p.natAbs
  if 0 ≤ p then digits ++ List.replicate places '0'
  else if places < digits.length then
    digits.take (digits.length - places) ++ '.' :: digits.drop (digits.length - places)
  else '0' :: '.' :: (List.replicate (places - digits.length) '0' ++ digits)

/-- The text of a number. -/
def text (n : Number) : String :=
  if n.isNaN then "NaN"
  else if n.isInfinite then if n.negative then "-Infinity" else "Infinity"
  else
    let digits := if n.isZero then ['0'] else positional n.shortest.1 n.shortest.2
    String.ofList (if n.negative then '-' :: digits else digits)

end DynVal.Number
