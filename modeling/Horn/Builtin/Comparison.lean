import Horn.Builtin.Arithmetic

/-!
Built-in comparisons. A comparison that holds has the value `'Yes'`; one that does not has none.
-/

set_option autoImplicit false
set_option relaxedAutoImplicit false

namespace Horn.Builtin

/-- The value of what holds. -/
def yes : Literal := .text "Yes"

/-- A test of two literals. -/
def test (accept : Literal → Literal → Bool) : Operation
  | [a, b] => if accept a b then some yes else none
  | _ => none

def eql : Operation := test fun a b => a == b

def neq : Operation := test fun a b => a != b

def gt : Operation := test fun a b => a.compare? b == some .gt

def lt : Operation := test fun a b => a.compare? b == some .lt

def gte : Operation := test fun a b => a.compare? b == some .gt || a.compare? b == some .eq

def lte : Operation := test fun a b => a.compare? b == some .lt || a.compare? b == some .eq

/-- Goes through values and keeps the one that lies furthest in the wanted direction, the first of
equal ones; there is none if a value cannot be compared with the one kept. -/
def extremeFrom (wanted : Ordering) (best : Literal) : List Literal → Option Literal
  | [] => some best
  | value :: rest =>
    match value.compare? best with
    | none => none
    | some order => extremeFrom wanted (if order == wanted then value else best) rest

def extreme (wanted : Ordering) : List Literal → Option Literal
  | [] => none
  | first :: rest => extremeFrom wanted first rest

/-- The extreme value of the inputs, or of the elements of a list that is the only input. -/
def extremeOf (wanted : Ordering) : Operation
  | [.list items] => extreme wanted items
  | [_] => none
  | inputs => extreme wanted inputs

def max : Operation := extremeOf .gt

def min : Operation := extremeOf .lt

end Horn.Builtin
