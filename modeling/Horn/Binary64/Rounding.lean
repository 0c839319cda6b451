import Horn.Binary64

/-!
Rounding to double precision and to integers, exactly.

`Binary64.nearest` is the double nearest to a quotient of natural numbers, a tie going to the even
significand. `truncate`, `floor`, `ceil` and `roundAway` give the integers next to a finite number.
-/

set_option autoImplicit false
set_option relaxedAutoImplicit false

namespace Horn

/-- The integer nearest to `numerator / denominator`, of two the even one. -/
def roundHalfEven (numerator denominator : Nat) : Nat :=
  let quotient := numerator / denominator
  let twice := 2 * (numerator % denominator)
  if twice < denominator then quotient
  else if denominator < twice then quotient + 1
  else quotient + quotient % 2

namespace Binary64

/-- The number with a sign and a magnitude. -/
def ofMagnitude (negative : Bool) (magnitude : Nat) : Float :=
  Float.ofBits (UInt64.ofNat (if negative then 0x8000000000000000 + magnitude else magnitude))

/-- A fraction of natural numbers divided by a power of two. -/
def scaleDown (numerator denominator : Nat) : Int → Nat × Nat
  | .ofNat up => (numerator, denominator * Nat.pow 2 up)
  | .negSucc down => (numerator * Nat.pow 2 (down + 1), denominator)

/-- The exponent of the largest power of two that is not above a positive fraction. -/
def binaryLog (numerator denominator : Nat) : Int :=
  let guess : Int := (numerator.log2 : Int) - denominator.log2
  let (n, d) := scaleDown numerator denominator guess
  if d ≤ n then guess else guess - 1

/-- The magnitude of the double nearest to a fraction; beyond the largest number it is infinite. -/
def nearestMagnitude (numerator denominator : Nat) : Nat :=
  if numerator = 0 then 0
  else
    let exponent := max (binaryLog numerator denominator - 52) (-1074)
    let (n, d) := scaleDown numerator denominator exponent
    min infinityMagnitude ((exponent + 1074).toNat * hiddenBit + roundHalfEven n d)

/-- The double nearest to a fraction with a sign. -/
def nearest (negative : Bool) (numerator denominator : Nat) : Float :=
  ofMagnitude negative (nearestMagnitude numerator denominator)

/-- The integers next to the absolute value of a finite number: the part before the point, whether
something follows the point, and the nearest integer, a half going up. -/
def around (parts : Parts) : Nat × Bool × Nat :=
  match parts.exponent with
  | .ofNat up => (parts.significand * Nat.pow 2 up, false, parts.significand * Nat.pow 2 up)
  | .negSucc down =>
    let unit := Nat.pow 2 (down + 1)
    (parts.significand / unit, parts.significand % unit ≠ 0,
      (2 * parts.significand + unit) / (2 * unit))

def withSign (negative : Bool) (size : Nat) : Int :=
  if negative then -(size : Int) else size

/-- The integer part of a finite number. -/
def truncate (x : Float) : Int :=
  let parts := split x
  withSign parts.negative (around parts).1

/-- The largest integer that is not above a finite number. -/
def floor (x : Float) : Int :=
  let parts := split x
  let (whole, more, _) := around parts
  withSign parts.negative (if parts.negative && more then whole + 1 else whole)

/-- The least integer that is not below a finite number. -/
def ceil (x : Float) : Int :=
  let parts := split x
  let (whole, more, _) := around parts
  withSign parts.negative (if !parts.negative && more then whole + 1 else whole)

/-- The integer nearest to a finite number, a half going away from zero. -/
def roundAway (x : Float) : Int :=
  let parts := split x
  withSign parts.negative (around parts).2.2

end Binary64

end Horn
