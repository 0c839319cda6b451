import Horn.Decimal.Fixed
import Horn.Literal.Basic
import Horn.Text.Radix

/-!
The written form of literals.

Numbers have at most twelve places, texts stand between single quotes, and lists between brackets.
`Literal.plain` is the form without quotes around a text.
-/

set_option autoImplicit false
set_option relaxedAutoImplicit false

namespace Horn.Literal

/-- How many places of a float are written. -/
def places : Nat := 12

/-- The text of an integer in base ten. -/
def integerText (value : Int64) : String :=
  Radix.render 10 value.toInt

def floatText (value : Float) : String :=
  Decimal.fixed places value

/-- A text between single quotes; a quote inside gets a backslash, and nothing else does. -/
def quoted (value : String) : String :=
  "'" ++ String.ofList (value.toList.flatMap fun c => if c = '\'' then ['\\', '\''] else [c]) ++ "'"

mutual

/-- Writes a literal after what is already written. -/
def write (done : String) : Literal → String
  | .integer value => done ++ integerText value
  | .float value => done ++ floatText value
  | .text value => done ++ quoted value
  | .list [] => done ++ "[]"
  | .list (first :: rest) => writeRest (write (done ++ "[") first) rest ++ "]"

/-- Writes the elements of a list after the first one, each behind a comma. -/
def writeRest (done : String) : List Literal → String
  | [] => done
  | item :: rest => writeRest (write (done ++ ", ") item) rest

end

/-- The written form of a literal. -/
def toText (a : Literal) : String :=
  write "" a

/-- The written form of a literal, except that a text stands for itself. -/
def plain : Literal → String
  | .text value => value
  | other => other.toText

end Horn.Literal
