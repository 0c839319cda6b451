import Horn.Fact.Basic

/-!
Predicate keys read back from text.

A key is a name, a slash and an arity. The last slash divides, so a name may hold slashes itself;
the arity is a run of decimal digits, behind a plus sign at most, and has to fit 64 bits.
-/

set_option autoImplicit false
set_option relaxedAutoImplicit false

namespace Horn

/-- The natural number that a non-empty run of decimal digits stands for, if it is below a bound. -/
def natural? (bound : Nat) (digits : List Char) : Option Nat :=
  if digits ≠ [] ∧ digits.all (Radix.isDigit 10) then Radix.valueBelow? 10 bound digits else none

/-- What an arity, a count or a position has to stay below. -/
def wordBound : Nat := 0x10000000000000000

/-- Reads an arity. -/
def arity? (text : List Char) : Option Nat :=
  let digits :=
    match text with
    | '+' :: rest => rest
    | other => other
  natural? wordBound digits

/-- Divides a text at its last slash. -/
def divideAtLastSlash? : List Char → Option (List Char × List Char)
  | [] => none
  | c :: rest =>
    match divideAtLastSlash? rest with
    | some (before, after) => some (c :: before, after)
    | none => if c = '/' then some ([], rest) else none

/-- The name and the arity that a key spells. -/
def readKey? (key : String) : Option (String × Nat) := do
  let (name, arity) ← divideAtLastSlash? key.toList
  return (String.ofList name, ← arity? arity)

end Horn
