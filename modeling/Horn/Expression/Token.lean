import Horn.Text.Blank
import Horn.Text.Radix

/-!
The tokens of an expression.

White space separates tokens and means nothing else; a numeral is the longest run of digits and
points, and an operand is a dollar sign with the digits right behind it.
-/

set_option autoImplicit false
set_option relaxedAutoImplicit false

namespace Horn.Expression

inductive Token where
  | symbol (c : Char)
  | operand (digits : List Char)
  | numeral (text : List Char)
  deriving DecidableEq, Repr

namespace Token

/-- The characters that are tokens by themselves. -/
def symbols : List Char :=
  ['|', '^', '&', '+', '-', '*', '/', '%', '~', '(', ')']

def isDigit (c : Char) : Bool :=
  Radix.isDigit 10 c

/-- The characters that numerals consist of. -/
def isNumeralChar (c : Char) : Bool :=
  isDigit c || c == '.'

/-- The tokens of a text, unless a character belongs to none. -/
def ofText? (text : List Char) : Option (List Token) :=
  match text with
  | [] => some []
  | c :: rest =>
    if isBlank c then ofText? rest
    else if c = '$' then
      (ofText? (rest.dropWhile isDigit)).map (.operand (rest.takeWhile isDigit) :: ·)
    else if isNumeralChar c then
      (ofText? (rest.dropWhile isNumeralChar)).map
        (.numeral (c :: rest.takeWhile isNumeralChar) :: ·)
    else if c ∈ symbols then (ofText? rest).map (.symbol c :: ·)
    else none
termination_by text.length
decreasing_by
  all_goals
    simp only [List.length_cons]
    have (p : Char → Bool) := (List.dropWhile_suffix (l := rest) p).length_le
    grind

end Token

end Horn.Expression
