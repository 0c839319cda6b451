import Horn.Binary64

/-!
Constant values: integers of 64 bits, double-precision numbers, texts and nested lists.

Equality of literals (`==`) keeps the kinds apart, and takes numbers by their place on the line.
`Literal.compare?` orders literals of one family: numbers with numbers, texts with texts, lists
with lists element by element.
-/

set_option autoImplicit false
set_option relaxedAutoImplicit false

namespace Horn

/-- A constant value. -/
inductive Literal where
  | integer (value : Int64)
  | float (value : Float)
  | text (value : String)
  | list (items : List Literal)
  deriving Inhabited

/-- The families inside which literals have an order. -/
inductive Family where
  | number
  | text
  | list
  deriving DecidableEq, Repr

namespace Literal

/-- The name of the kind of a literal. -/
def typeName : Literal → String
  | .integer _ => "integer"
  | .float _ => "float"
  | .text _ => "string"
  | .list _ => "list"

def family : Literal → Family
  | .integer _ | .float _ => .number
  | .text _ => .text
  | .list _ => .list

def isNumber (a : Literal) : Bool :=
  a.family == .number

def sameFamily (a b : Literal) : Bool :=
  a.family == b.family

/-- A number as a double; an integer goes to the nearest one. -/
def toFloat? : Literal → Option Float
  | .integer value => some value.toFloat
  | .float value => some value
  | .text _ | .list _ => none

mutual

/-- Equality of kind and value; numbers are equal if they have the same place on the line. -/
def same : Literal → Literal → Bool
  | .integer a, .integer b => a == b
  | .float a, .float b => Binary64.same a b
  | .text a, .text b => a == b
  | .list as, .list bs => sameItems as bs
  | _, _ => false

/-- Equality of lists of literals, element by element. -/
def sameItems : List Literal → List Literal → Bool
  | [], [] => true
  | a :: as, b :: bs => a.same b && sameItems as bs
  | _, _ => false

end

instance : BEq Literal := ⟨same⟩

mutual

/-- The order of two literals of one family, if they are comparable: integers exactly, an integer
and a float as doubles, texts by code points, lists by their first elements that are not equal and
then by length. -/
def compare? : Literal → Literal → Option Ordering
  | .integer a, .integer b => some (compare a b)
  | .integer a, .float b => Binary64.compare? a.toFloat b
  | .float a, .integer b => Binary64.compare? a b.toFloat
  | .float a, .float b => Binary64.compare? a b
  | .text a, .text b => some (compare a b)
  | .list as, .list bs => compareItems? as bs
  | _, _ => none

/-- The order of two lists of literals; a list comes after its beginnings. -/
def compareItems? : List Literal → List Literal → Option Ordering
  | [], [] => some .eq
  | [], _ :: _ => some .lt
  | _ :: _, [] => some .gt
  | a :: as, b :: bs =>
    match a.compare? b with
    | some .eq => compareItems? as bs
    | decided => decided

end

theorem beq_def (a b : Literal) : (a == b) = a.same b := rfl

end Literal

end Horn
