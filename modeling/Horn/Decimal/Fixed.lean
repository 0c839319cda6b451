import Horn.Binary64.Rounding
import Horn.Text.Radix

/-!
Decimal text with a fixed number of places.

`Decimal.scaled` rounds an exact binary value to a multiple of a power of ten, a half going to the
even neighbour, and `Decimal.trimmed` writes such a multiple without its superfluous zeros.
-/

set_option autoImplicit false
set_option relaxedAutoImplicit false

namespace Horn.Decimal

/-- The integer nearest to `significand * 2 ^ exponent * 10 ^ places`, of two the even one. -/
def scaled (significand : Nat) (exponent : Int) (places : Nat) : Nat :=
  match exponent with
  | .ofNat up => significand * Nat.pow 2 up * Nat.pow 10 places
  | .negSucc down => roundHalfEven (significand * Nat.pow 10 places) (Nat.pow 2 (down + 1))

/-- The digits of a number in a base, padded with zeros in front to at least `width`. -/
def padded (base width value : Nat) : List Char :=
  let digits := Radix.digits base value
  List.replicate (width - digits.length) '0' ++ digits

/-- Drops the zeros at the end of a list of digits, but never the first digit. -/
def dropTrailingZeros : List Char → List Char
  | [] => []
  | first :: rest => first :: (rest.reverse.dropWhile (· == '0')).reverse

/-- Writes `value / 10 ^ places` with a point, keeping one digit after the point at the least. -/
def trimmed (places value : Nat) : String :=
  let whole := value / Nat.pow 10 places
  let fraction := value % Nat.pow 10 places
  Radix.render 10 whole ++ "." ++ String.ofList (dropTrailingZeros (padded 10 places fraction))

/-- The text of a number to `places` places: the exact value is rounded, a half to even, zeros at
the end are dropped, and a sign is kept even before zero. -/
def fixed (places : Nat) (x : Float) : String :=
  if Binary64.isNaN x then "NaN"
  else
    let parts := Binary64.split x
    let body :=
      if Binary64.isFinite x then trimmed places (scaled parts.significand parts.exponent places)
      else "inf"
    if parts.negative then "-" ++ body else body

end Horn.Decimal
