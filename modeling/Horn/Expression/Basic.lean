import Horn.Builtin.Number
import Horn.Decimal.Reading
import Horn.Fact.Key

/-!
Arithmetic expressions and their values.
-/

set_option autoImplicit false
set_option relaxedAutoImplicit false

namespace Horn

namespace Expression

/-- Operations on two operands. -/
inductive Binary where
  | or
  | xor
  | and
  | add
  | sub
  | mul
  | div
  | mod
  deriving DecidableEq, Repr

/-- Operations on one operand. -/
inductive Unary where
  | minus
  | plus
  | complement
  deriving DecidableEq, Repr

/-- The precedence of an operation: a higher one binds its operands more tightly. -/
def Binary.level : Binary → Nat
  | .or => 0
  | .xor => 1
  | .and => 2
  | .add | .sub => 3
  | .mul | .div | .mod => 4

def Binary.apply : Binary → Number → Number → Option Number
  | .or => Number.onIntegers (· ||| ·)
  | .xor => Number.onIntegers (· ^^^ ·)
  | .and => Number.onIntegers (· &&& ·)
  | .add => Number.add
  | .sub => Number.sub
  | .mul => Number.mul
  | .div => Number.div
  | .mod => Number.modulo

/-- A minus takes its operand from the integer zero. -/
def Unary.apply : Unary → Number → Option Number
  | .minus => Number.sub (.int 0)
  | .plus => some
  | .complement => Number.complement

end Expression

/-- An expression over numerals and numbered operands, with the parentheses that group it. -/
inductive Expression where
  | numeral (text : List Char)
  | operand (digits : List Char)
  | group (inner : Expression)
  | unary (op : Expression.Unary) (arg : Expression)
  | binary (op : Expression.Binary) (left right : Expression)
  deriving Inhabited, DecidableEq

namespace Expression

/-- The value of a numeral: a double if it has a point, otherwise an integer if it fits. -/
def numeralValue? (text : List Char) : Option Number :=
  if '.' ∈ text then (Decimal.read? text).map .float
  else ((natural? wordBound text).bind fun n => int64? n).map .int

/-- The operand with a number; numbers start at zero. -/
def operandValue? (operands : List Number) (digits : List Char) : Option Number :=
  (natural? wordBound digits).bind (operands[·]?)

/-- The value of an expression; it has none as soon as a part has none. -/
def value? (operands : List Number) : Expression → Option Number
  | .numeral text => numeralValue? text
  | .operand digits => operandValue? operands digits
  | .group inner => inner.value? operands
  | .unary op arg => (arg.value? operands).bind op.apply
  | .binary op left right =>
    (left.value? operands).bind fun a => (right.value? operands).bind fun b => op.apply a b

end Expression

end Horn
