import Horn.Decimal.Shortest

/-!
JSON text without white space.
-/

set_option autoImplicit false
set_option relaxedAutoImplicit false

namespace Horn.Json

/-- How a character is written inside quotes. -/
def escape (c : Char) : List Char :=
  match c with
  | '"' => ['\\', '"']
  | '\\' => ['\\', '\\']
  | '\x08' => ['\\', 'b']
  | '\x0c' => ['\\', 'f']
  | '\n' => ['\\', 'n']
  | '\r' => ['\\', 'r']
  | '\t' => ['\\', 't']
  | c => if c.toNat < 32 then ['\\', 'u'] ++ Decimal.padded 16 4 c.toNat else [c]

def writeText (value : String) : String :=
  "\"" ++ String.ofList (value.toList.flatMap escape) ++ "\""

def writeInt (value : Int) : String :=
  Radix.render 10 value

/-- Up to which power of ten a double is written without exponent. -/
def maxPlace : Int := 16

/-- Above which power of ten a double below one is written without exponent. -/
def minPlace : Int := -5

/-- An exponent always has a sign and has no zeros in front. -/
def writeExponent (exponent : Int) : String :=
  if exponent < 0 then writeInt exponent else "+" ++ writeInt exponent

/-- Digits with a point where a power of ten puts it, or with an exponent behind the first digit. -/
def placePoint (digits : List Char) (place : Int) : List Char :=
  let count : Int := digits.length
  if count ≤ place ∧ place ≤ maxPlace then
    digits ++ List.replicate (place - count).toNat '0' ++ ['.', '0']
  else if 0 < place ∧ place ≤ maxPlace then
    digits.take place.toNat ++ '.' :: digits.drop place.toNat
  else if minPlace < place ∧ place ≤ 0 then
    ['0', '.'] ++ List.replicate (-place).toNat '0' ++ digits
  else
    let mantissa :=
      match digits with
      | first :: second :: rest => first :: '.' :: second :: rest
      | short => short
    mantissa ++ 'e' :: (writeExponent (place - 1)).toList

/-- A double with the fewest digits that read back; infinite numbers and NaN are null. -/
def writeFloat (x : Float) : String :=
  if Binary64.isFinite x then
    let parts := Binary64.split x
    let body :=
      if parts.significand = 0 then "0.0"
      else
        let (digits, place) := (Decimal.shortest parts.significand parts.exponent).pointed
        String.ofList (placePoint digits place)
    if parts.negative then "-" ++ body else body
  else "null"

def writeArray (items : List String) : String :=
  "[" ++ ",".intercalate items ++ "]"

/-- An object with these fields, whose values are written already. -/
def writeObject (fields : List (String × String)) : String :=
  "\x7b" ++ ",".intercalate (fields.map fun (key, value) => writeText key ++ ":" ++ value) ++ "\x7d"

/-- One case of a choice, with what it carries. -/
def writeCase (name value : String) : String :=
  writeObject [(name, value)]

end Horn.Json
