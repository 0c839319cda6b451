import Horn.Binary64.Rounding
import Horn.Text.Radix

/-!
Numbers as JSON text writes them, and the values they are read as.

An integer is read exactly. A double is read from the digits that fit a word of 64 bits, scaled by a
power of ten in double precision; this is the nearest double where digits and power are small, and
may be off in the last place elsewhere.
-/

set_option autoImplicit false
set_option relaxedAutoImplicit false

namespace Horn.Json

/-- A number as it is written: a sign, digits before the point, digits behind it, and an exponent
with a sign. -/
structure Numeral where
  negative : Bool
  whole : List Char
  fraction : List Char
  exponent : Option (Bool × List Char)
  deriving Repr, DecidableEq

namespace Numeral

/-- The digits that fit a word, as a number, and a power of ten. -/
structure Scaled where
  significand : Nat
  exponent : Int
  deriving Repr, DecidableEq

/-- Takes one more digit if the word has room for it. -/
def Scaled.take? (s : Scaled) (c : Char) : Option Nat :=
  let next := s.significand * 10 + Radix.value 10 [c]
  if next < 0x10000000000000000 then some next else none

/-- Takes the digits before the point; those from the first one on that does not fit count as
places. -/
def Scaled.takeWhole (s : Scaled) : List Char → Scaled
  | [] => s
  | c :: rest =>
    match s.take? c with
    | some significand => takeWhole ⟨significand, s.exponent⟩ rest
    | none => ⟨s.significand, s.exponent + (rest.length + 1)⟩

/-- Takes the digits behind the point up to the first one that does not fit. -/
def Scaled.takeFraction (s : Scaled) : List Char → Scaled
  | [] => s
  | c :: rest =>
    match s.take? c with
    | some significand => takeFraction ⟨significand, s.exponent - 1⟩ rest
    | none => s

/-- The natural number that is written, if it is an integer without exponent and fits a word. -/
def word? (n : Numeral) : Option Nat :=
  if n.fraction = [] ∧ n.exponent = none then Radix.valueBelow? 10 0x10000000000000000 n.whole
  else none

/-- A natural number of 64 bits. -/
def natural? (n : Numeral) : Option Nat :=
  if n.negative then none else n.word?

/-- An integer of 64 bits; zero with a minus sign is none. -/
def integer? (n : Numeral) : Option Int64 :=
  n.word?.bind fun size =>
    if n.negative then
      if 0 < size ∧ size ≤ 0x8000000000000000 then some (Int64.ofInt (-size)) else none
    else if size < 0x8000000000000000 then some (Int64.ofInt size)
    else none

/-- The greatest power of ten that is a double. -/
def maxPower : Nat := 308

/-- A power of ten as a double. -/
def power (exponent : Nat) : Float :=
  Binary64.nearest false (Nat.pow 10 exponent) 1

/-- Scales a positive double by a power of ten; a result beyond the doubles is none. -/
def scale? (x : Float) (exponent : Int) : Option Float :=
  if 0 ≤ exponent then
    if exponent ≤ maxPower then
      let scaled := x * power exponent.toNat
      if Binary64.isFinite scaled then some scaled else none
    else if Binary64.magnitude x = 0 then some x
    else none
  else if -(maxPower : Int) ≤ exponent then some (x / power exponent.natAbs)
  else if Binary64.magnitude x = 0 then some x
  else scale? (x / power maxPower) (exponent + maxPower)
termination_by exponent.natAbs
decreasing_by all_goals simp only [maxPower] at *; omega

/-- The bound of written exponents. -/
def exponentBound : Nat := 0x80000000

/-- A double that is not negative: the digits are scaled by the exponent, and an exponent beyond the
bound gives zero unless it is positive and a digit is not zero. -/
def size? (n : Numeral) : Option Float :=
  let digits := ((⟨0, 0⟩ : Scaled).takeWhole n.whole).takeFraction n.fraction
  let x := Binary64.nearest false digits.significand 1
  match n.exponent with
  | none => scale? x digits.exponent
  | some (negative, text) =>
    match Radix.valueBelow? 10 exponentBound text with
    | none => if digits.significand ≠ 0 && !negative then none else some 0
    | some exponent => scale? x (digits.exponent + Binary64.withSign negative exponent)

/-- A double. -/
def float? (n : Numeral) : Option Float :=
  n.size?.map fun x => if n.negative then -x else x

end Numeral

end Horn.Json
