import Horn.Builtin.Arithmetic
import Horn.Literal.Text

/-!
Built-in conversions between kinds of literals.

Texts are read leniently: blanks in front and anything behind a number are passed over, and a text
without a number counts as zero.
-/

set_option autoImplicit false
set_option relaxedAutoImplicit false

namespace Horn.Builtin

/-- A base in which integers can be written. -/
def radix? (base : Int64) : Option Nat :=
  if 2 ≤ base.toInt ∧ base.toInt ≤ 36 then some base.toInt.toNat else none

def asString : Operation
  | [value] => some (.text value.plain)
  | [.integer value, .integer base] =>
    (radix? base).map fun base => .text (Radix.render base value.toInt)
  | _ => none

/-- Divides a sign from the characters behind it. -/
def divideSign : List Char → Bool × List Char
  | '-' :: rest => (true, rest)
  | '+' :: rest => (false, rest)
  | text => (false, text)

/-- The integer at the front of a text. The digits have to stand for an integer of 64 bits by
themselves, before a minus sign is applied. -/
def lenientInteger? (base : Nat) (text : String) : Option Int64 :=
  let (negative, rest) := divideSign (dropBlanks text.toList)
  match rest.takeWhile (Radix.isDigit base) with
  | [] => some 0
  | digits =>
    ((Radix.valueBelow? base wordBound digits).bind fun value => int64? value).map fun value =>
      if negative then -value else value

/-- The double at the front of a text: digits with one point at most. -/
def lenientFloat (text : String) : Float :=
  let (negative, rest) := divideSign (dropBlanks text.toList)
  let whole := rest.takeWhile (Radix.isDigit 10)
  let fraction :=
    match rest.dropWhile (Radix.isDigit 10) with
    | '.' :: behind => behind.takeWhile (Radix.isDigit 10)
    | _ => []
  if (whole ++ fraction).isEmpty then 0 else Decimal.ofDigits negative whole fraction

/-- A count as an integer. -/
def countLiteral? (count : Nat) : Option Literal :=
  (int64? count).map .integer

def asInteger : Operation
  | [.integer value] => some (.integer value)
  | [.float x] => (integerNear? Binary64.truncate x).map Number.toLiteral
  | [.text value] => (lenientInteger? 10 value).map .integer
  | [.list items] => countLiteral? items.length
  | [.text value, .integer base] =>
    (radix? base).bind fun base => (lenientInteger? base value).map .integer
  | _ => none

def asFloat : Operation
  | [.text value] => some (.float (lenientFloat value))
  | [.list items] => some (.float (Binary64.nearest false items.length 1))
  | [value] => value.toFloat?.map .float
  | _ => none

/-- The code point of the first character. -/
def ord : Operation
  | [.text value] => value.toList.head?.bind fun c => countLiteral? c.toNat
  | _ => none

/-- The text of the character with a code point. -/
def char : Operation
  | [.integer code] =>
    let point := code.toInt.toNat
    if 0 ≤ code.toInt ∧ point.isValidChar then some (.text (String.ofList [Char.ofNat point]))
    else none
  | _ => none

/-- The name of the kind of the input. -/
def typeOf : Operation
  | value :: _ => some (.text value.typeName)
  | [] => none

/-- The input itself. -/
def set : Operation
  | value :: _ => some value
  | [] => none

end Horn.Builtin
