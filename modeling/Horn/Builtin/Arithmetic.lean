import Horn.Expression.Reading

/-!
Built-in operations on numbers.

An operation takes a list of literals and has a value only where it applies to them.
-/

set_option autoImplicit false
set_option relaxedAutoImplicit false

namespace Horn.Builtin

/-- An operation on ground inputs; it may have no value. -/
abbrev Operation := List Literal → Option Literal

/-- Applies an operation to numbers, if all literals are numbers. -/
def onNumbers (op : List Number → Option Number) : Operation :=
  fun inputs => ((inputs.mapM Number.ofLiteral?).bind op).map Number.toLiteral

/-- Combines numbers from left to right; there has to be one at least. -/
def foldNumbers (op : Number → Number → Option Number) : List Number → Option Number
  | [] => none
  | first :: rest => rest.foldlM op first

/-- An operation on two numbers. -/
def onTwo (op : Number → Number → Option Number) : Operation :=
  onNumbers fun
    | [a, b] => op a b
    | _ => none

/-- An operation on one number. -/
def onOne (op : Number → Option Number) : Operation :=
  onNumbers fun
    | [a] => op a
    | _ => none

def add : Operation := onNumbers (foldNumbers Number.add)

def sub : Operation := onTwo Number.sub

def mul : Operation := onNumbers (foldNumbers Number.mul)

def div : Operation := onTwo Number.div

def modulo : Operation := onTwo Number.modulo

/-- A power of an integer, if it fits; bases of size one at most have powers for every exponent. -/
def integerPower? (base : Int) (exponent : Nat) : Option Int64 :=
  if exponent = 0 then some 1
  else if base = 0 ∨ base = 1 then int64? base
  else if base = -1 then int64? (if exponent % 2 = 0 then 1 else -1)
  else if exponent < 64 then int64? (Int.pow base exponent)
  else none

/-- A power of two integers needs an exponent of 32 bits without sign. -/
def power? : Number → Number → Option Number
  | .int a, .int b =>
    if b.toInt < 0 ∨ 0x100000000 ≤ b.toInt then none
    else (integerPower? a.toInt b.toInt.toNat).map .int
  | a, b => some (.float (a.toFloat.pow b.toFloat))

def pow : Operation := onTwo power?

/-- Whether a double lies above another one. -/
def above (x y : Float) : Bool :=
  Binary64.compare? x y == some .gt

/-- The square root of a number that is not negative. -/
def sqrt : Operation :=
  onOne fun a =>
    let x := a.toFloat
    if above x 0 || Binary64.compare? x 0 == some .eq then some (.float x.sqrt) else none

/-- The logarithm of a positive number to a base above one. -/
def log : Operation :=
  onTwo fun a b =>
    let x := a.toFloat
    let base := b.toFloat
    if above x 0 && above base 1 then some (.float (x.log / base.log)) else none

/-- A power of a double by repeated squaring, times what was multiplied up so far. -/
def powerBySquaring (done base : Float) (exponent : Nat) : Float :=
  let done := if exponent % 2 = 1 then done * base else done
  if exponent / 2 = 0 then done else powerBySquaring done (base * base) (exponent / 2)
termination_by exponent
decreasing_by omega

/-- The integer of 64 bits that is an integer next to a finite double. -/
def integerNear? (near : Float → Int) (x : Float) : Option Number :=
  if Binary64.isFinite x then (int64? (near x)).map .int else none

/-- Rounds to a number of decimal places, a half going away from zero. -/
def roundTo? (places : Nat) : Number → Option Number
  | .int value => some (.int value)
  | .float x =>
    if places = 0 then integerNear? Binary64.roundAway x
    else if places < 0x80000000 then
      let scale := powerBySquaring 1 10 places
      some (.float ((x * scale).round / scale))
    else none

def round : Operation
  | [value, .integer places] =>
    if places.toInt < 0 then none
    else ((Number.ofLiteral? value).bind (roundTo? places.toInt.toNat)).map Number.toLiteral
  | _ => none

/-- Takes an integer next to a double; an integer stays. -/
def toIntegerBy (near : Float → Int) : Operation :=
  onOne fun
    | .int value => some (.int value)
    | .float x => integerNear? near x

def trunc : Operation := toIntegerBy Binary64.truncate

def floor : Operation := toIntegerBy Binary64.floor

def ceil : Operation := toIntegerBy Binary64.ceil

def abs : Operation :=
  onOne fun
    | .int value => (int64? value.toInt.natAbs).map .int
    | .float x => some (.float x.abs)

/-- Evaluates the expression in the last input, its operands being the other inputs. -/
def eval : Operation
  | [] => none
  | first :: rest =>
    match (first :: rest).getLast? with
    | some (.text source) =>
      onNumbers (Expression.evaluate? source) (first :: rest).dropLast
    | _ => none

/-- An operation on the bits of two integers. -/
def onBits (op : Int64 → Int64 → Option Int64) : Operation
  | [.integer a, .integer b] => (op a b).map .integer
  | _ => none

def bitAnd : Operation := onBits fun a b => some (a &&& b)

def bitOr : Operation := onBits fun a b => some (a ||| b)

def bitXor : Operation := onBits fun a b => some (a ^^^ b)

def bitNeg : Operation
  | [.integer a] => some (.integer (~~~a))
  | _ => none

/-- Whether an integer can be a distance to shift by. -/
def isShift (distance : Int64) : Bool :=
  0 ≤ distance.toInt && distance.toInt < 64

/-- Shifts to the left; bits that leave the word are lost. -/
def shiftLeft : Operation := onBits fun a b => if isShift b then some (a <<< b) else none

/-- Shifts to the right and keeps the sign. -/
def shiftRight : Operation := onBits fun a b => if isShift b then some (a >>> b) else none

end Horn.Builtin
