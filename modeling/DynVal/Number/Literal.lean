import DynVal.Number.Rounding

/-!
# Decimal literals

A literal is an optional minus sign, digits, an optional point with further digits that may be
missing, and an optional power of ten after `e` or `E`. It stands for the nearest number, which
is infinite for a literal that is too large.
-/

namespace DynVal.Number

structure Literal where
  negative : Bool
  whole : List Char
  fraction : List Char
  power : Int

namespace Literal

/-- Value of decimal digits. -/
def digitsValue (cs : List Char) : Nat :=
  cs.foldl (fun n c => 10 * n + (c.toNat - 48)) 0

/-- The power of ten after its mark, which ends the text. -/
def power? : List Char → Option Int
  | [] => none
  | '-' :: cs => if cs ≠ [] ∧ cs.all Char.isDigit then some (-(digitsValue cs : Int)) else none
  | '+' :: cs => if cs ≠ [] ∧ cs.all Char.isDigit then some (digitsValue cs) else none
  | cs => if cs.all Char.isDigit then some (digitsValue cs) else none

/-- What follows the digits before and after the point. -/
def tail? : List Char → Option Int
  | [] => some 0
  | 'e' :: cs => power? cs
  | 'E' :: cs => power? cs
  | _ => none

/-- Reads a literal without its sign. -/
def unsigned? (negative : Bool) (cs : List Char) : Option Literal :=
  let whole := cs.takeWhile Char.isDigit
  if whole = [] then none
  else
    match cs.dropWhile Char.isDigit with
    | '.' :: rest =>
      (tail? (rest.dropWhile Char.isDigit)).map fun p =>
        ⟨negative, whole, rest.takeWhile Char.isDigit, p⟩
    | rest => (tail? rest).map fun p => ⟨negative, whole, [], p⟩

def read? : List Char → Option Literal
  | '-' :: cs => unsigned? true cs
  | cs => unsigned? false cs

/-- The number nearest to the literal. A power far outside the range of numbers is decided by the
count of digits alone. -/
def value (l : Literal) : Number :=
  let digits := digitsValue (l.whole ++ l.fraction)
  let power : Int := l.power - l.fraction.length
  let size : Int := (Nat.toDigits 10 digits).length + power
  if digits = 0 then ofRatio l.negative 0 1
  else if 400 < size then ofRatio l.negative (1 <<< 1024) 1
  else if size < -400 then ofRatio l.negative 0 1
  else if 0 ≤ power then ofRatio l.negative (digits * Nat.pow 10 power.natAbs) 1
  else ofRatio l.negative digits (Nat.pow 10 power.natAbs)

end Literal

/-- The number that a decimal literal stands for. -/
def parse? (cs : List Char) : Option Number := (Literal.read? cs).map Literal.value

end DynVal.Number
