import Horn.Binary64.Rounding
import Horn.Text.Radix

/-!
Decimal text read as a double: the nearest double to the number that the digits spell.

A double and the midpoint of two neighbouring doubles have fewer than eight hundred significant
digits. Of a longer number it matters only whether anything follows these digits, so one more digit
stands for all the others.
-/

set_option autoImplicit false
set_option relaxedAutoImplicit false

namespace Horn.Decimal

/-- How many significant digits are read one by one. -/
def readDigits : Nat := 800

/-- A bound for powers of ten: scaled by a greater one, or by the inverse of it, all numbers with
the digits that are read lie beyond the doubles or next to zero. -/
def maxScale : Int := 2000

/-- The double nearest to a number times a power of ten. -/
def nearestScaled (negative : Bool) (number : Nat) (exponent : Int) : Float :=
  match max (-maxScale) (min maxScale exponent) with
  | .ofNat up => Binary64.nearest negative (number * Nat.pow 10 up) 1
  | .negSucc down => Binary64.nearest negative number (Nat.pow 10 (down + 1))

/-- The double nearest to the number with these digits before and after the point. -/
def ofDigits (negative : Bool) (whole fraction : List Char) : Float :=
  let digits := (whole ++ fraction).dropWhile (· == '0')
  let others := digits.drop readDigits
  let last := if others.any (· != '0') then 1 else 0
  nearestScaled negative (Radix.value 10 (digits.take readDigits) * 10 + last)
    (others.length - fraction.length - 1)

/-- Digits with a point, of which one side may lack its digits. -/
def read? (text : List Char) : Option Float :=
  let whole := text.takeWhile (Radix.isDigit 10)
  match text.dropWhile (Radix.isDigit 10) with
  | '.' :: fraction =>
    if fraction.all (Radix.isDigit 10) && !(whole ++ fraction).isEmpty then
      some (ofDigits false whole fraction)
    else none
  | _ => none

end Horn.Decimal
