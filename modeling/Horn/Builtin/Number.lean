import Horn.Binary64.Remainder
import Horn.Literal.Basic

/-!
Arithmetic on integers of 64 bits and doubles.

Two integers give an integer, or no value if the exact result does not fit; as soon as one operand
is a double, both are taken as doubles.
-/

set_option autoImplicit false
set_option relaxedAutoImplicit false

namespace Horn

/-- An operand of arithmetic. -/
inductive Number where
  | int (value : Int64)
  | float (value : Float)
  deriving Inhabited

/-- The integer of 64 bits with this value, if there is one. -/
def int64? (value : Int) : Option Int64 :=
  if -0x8000000000000000 ≤ value ∧ value < 0x8000000000000000 then some (Int64.ofInt value)
  else none

namespace Number

def ofLiteral? : Literal → Option Number
  | .integer value => some (.int value)
  | .float value => some (.float value)
  | .text _ | .list _ => none

def toLiteral : Number → Literal
  | .int value => .integer value
  | .float value => .float value

def toFloat : Number → Float
  | .int value => value.toFloat
  | .float value => value

/-- Zero of either kind and sign. -/
def isZero : Number → Bool
  | .int value => value == 0
  | .float value => Binary64.magnitude value == 0

/-- The quotient of two integers rounded toward zero, unless it does not fit. -/
def truncDiv? (a b : Int64) : Option Int64 :=
  if b = 0 ∨ (a = Int64.minValue ∧ b = -1) then none else some (a / b)

/-- What the quotient rounded toward zero leaves; there is nothing left of a quotient that does not
fit. -/
def truncMod? (a b : Int64) : Option Int64 :=
  if b = 0 ∨ (a = Int64.minValue ∧ b = -1) then none else some (a % b)

/-- Rounding down goes one below rounding toward zero where the exact quotient is negative and not
whole. -/
def floorDiv? (a b : Int64) : Option Int64 :=
  (truncDiv? a b).map fun q => if a % b ≠ 0 ∧ ¬(a < 0 ↔ b < 0) then q - 1 else q

/-- A remainder of the other sign than the divisor is moved by one divisor. -/
def floorMod? (a b : Int64) : Option Int64 :=
  (truncMod? a b).map fun r => if r ≠ 0 ∧ ¬(r < 0 ↔ b < 0) then r + b else r

/-- Takes the operation of integers for two integers and the one of doubles otherwise. -/
def combine (onInts : Int64 → Int64 → Option Int64) (onFloats : Float → Float → Float) :
    Number → Number → Option Number
  | .int a, .int b => (onInts a b).map .int
  | a, b => some (.float (onFloats a.toFloat b.toFloat))

def add : Number → Number → Option Number :=
  combine (fun a b => int64? (a.toInt + b.toInt)) (· + ·)

def sub : Number → Number → Option Number :=
  combine (fun a b => int64? (a.toInt - b.toInt)) (· - ·)

def mul : Number → Number → Option Number :=
  combine (fun a b => int64? (a.toInt * b.toInt)) (· * ·)

/-- The quotient, which integers round down; nothing can be divided by zero. -/
def div (a b : Number) : Option Number :=
  if b.isZero then none else combine floorDiv? (· / ·) a b

/-- The remainder of doubles with the sign of the divisor. -/
def floatModulo (a b : Float) : Float :=
  let r := Binary64.remainder a b
  if Binary64.compare? r 0 != some .eq &&
      (Binary64.compare? r 0 == some .lt) != (Binary64.compare? b 0 == some .lt) then r + b
  else r

/-- The remainder with the sign of the divisor. Integers whose quotient does not fit have none. -/
def modulo (a b : Number) : Option Number :=
  if b.isZero then none else combine floorMod? floatModulo a b

/-- Applies an operation of integers; doubles have no value under it. -/
def onIntegers (op : Int64 → Int64 → Int64) : Number → Number → Option Number
  | .int a, .int b => some (.int (op a b))
  | _, _ => none

/-- The complement of every bit of an integer. -/
def complement : Number → Option Number
  | .int a => some (.int (~~~a))
  | .float _ => none

end Number

end Horn
