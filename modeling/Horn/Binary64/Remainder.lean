import Horn.Binary64.Rounding

/-!
The remainder of a division of doubles whose quotient is cut off at the point.

It is always exact, so it is computed on natural numbers.
-/

set_option autoImplicit false
set_option relaxedAutoImplicit false

namespace Horn.Binary64

/-- The remainder of the absolute values of two finite numbers, in units of `2 ^ exponent`. -/
def remainderParts (a b : Parts) : Nat × Int :=
  let exponent := min a.exponent b.exponent
  let size (p : Parts) : Nat := p.significand * Nat.pow 2 (p.exponent - exponent).toNat
  (size a % size b, exponent)

/-- What is left of `x` after as many whole `y` as fit were taken away; it has the sign of `x`. -/
def remainder (x y : Float) : Float :=
  if isNaN x || isNaN y || !isFinite x || magnitude y = 0 then 0 / 0
  else if !isFinite y then x
  else
    let (units, exponent) := remainderParts (split x) (split y)
    let (n, d) := scaleDown units 1 (-exponent)
    nearest (signed x) n d

end Horn.Binary64
