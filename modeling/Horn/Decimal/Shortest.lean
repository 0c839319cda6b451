import Horn.Decimal.Fixed

/-!
The shortest decimal that reads back as a given double.

The decimals that read back are those in the interval around the number that ends halfway to its
neighbours. For one digit, two digits and so on, the two decimals next to the number are tried; of
two that fit the nearer one is taken.
-/

set_option autoImplicit false
set_option relaxedAutoImplicit false

namespace Horn.Decimal

/-- A fraction of natural numbers. -/
structure Fraction where
  numerator : Nat
  denominator : Nat
  deriving Repr

namespace Fraction

def le (a b : Fraction) : Bool :=
  a.numerator * b.denominator ≤ b.numerator * a.denominator

def lt (a b : Fraction) : Bool :=
  !b.le a

/-- A number times a power of a base. -/
def scaled (base number : Nat) : Int → Fraction
  | .ofNat up => ⟨number * Nat.pow base up, 1⟩
  | .negSucc down => ⟨number, Nat.pow base (down + 1)⟩

/-- The distance of two fractions. -/
def distance (a b : Fraction) : Fraction :=
  let left := a.numerator * b.denominator
  let right := b.numerator * a.denominator
  ⟨(left - right) + (right - left), a.denominator * b.denominator⟩

end Fraction

/-- The numbers that round to a double: from `low` to `high`, the ends included or not. -/
structure Interval where
  low : Fraction
  high : Fraction
  closed : Bool
  deriving Repr

/-- The numbers that round to `significand * 2 ^ exponent`. The lower neighbour of a power of two is
only half as far away as the upper one, except at the smallest exponent. -/
def Interval.around (significand : Nat) (exponent : Int) : Interval :=
  let gap := if significand = Binary64.hiddenBit ∧ -1074 < exponent then 1 else 2
  ⟨.scaled 2 (4 * significand - gap) (exponent - 2), .scaled 2 (4 * significand + 2) (exponent - 2),
    significand % 2 = 0⟩

def Interval.contains (i : Interval) (x : Fraction) : Bool :=
  if i.closed then i.low.le x && x.le i.high else i.low.lt x && x.lt i.high

/-- A decimal: digits as a number, times a power of ten. -/
structure Digits where
  number : Nat
  exponent : Int
  deriving DecidableEq, Repr

/-- The digits without zeros at the end, and the power of ten that has to be multiplied to them when
they are read behind a point. -/
def Digits.pointed (d : Digits) : List Char × Int :=
  let all := Radix.digits 10 d.number
  (dropTrailingZeros all, all.length + d.exponent)

/-- The number of digits that a number has before the point, counted in powers of ten; the number is
below ten to this power, and not below ten to the power before. -/
def pointPlace (x : Fraction) : Int :=
  let shift : Nat := 400
  ((Radix.digits 10 (x.numerator * Nat.pow 10 shift / x.denominator)).length : Int) - shift

/-- The decimal with this exponent nearest to a number among those in an interval. -/
def nearestIn (i : Interval) (x : Fraction) (exponent : Int) : Option Digits :=
  let unit := Fraction.scaled 10 1 exponent
  let below := x.numerator * unit.denominator / (x.denominator * unit.numerator)
  let value (number : Nat) : Fraction := .scaled 10 number exponent
  match i.contains (value below), i.contains (value (below + 1)) with
  | false, false => none
  | true, false => some ⟨below, exponent⟩
  | false, true => some ⟨below + 1, exponent⟩
  | true, true =>
    let down := x.distance (value below)
    let up := x.distance (value (below + 1))
    if down.lt up || (down.le up && below % 2 = 0) then some ⟨below, exponent⟩
    else some ⟨below + 1, exponent⟩

/-- Seventeen digits always suffice. -/
def maxDigits : Nat := 17

/-- The decimal with the fewest digits that reads back as a positive finite number. -/
def shortest (significand : Nat) (exponent : Int) : Digits :=
  let x := Fraction.scaled 2 significand exponent
  let i := Interval.around significand exponent
  let place := pointPlace x
  ((List.range maxDigits).findSome? fun (count : Nat) => nearestIn i x (place - (count + 1))).getD
    ⟨significand, exponent⟩

end Horn.Decimal
