/-!
Double-precision numbers seen through their bits.

`Binary64.rank` places a number on the line as an integer, so that both zeros share a place and a
NaN has none; equality and order of numbers are equality and order of places. `Binary64.split`
gives the exact value of a finite number as a signed significand times a power of two.
-/

set_option autoImplicit false
set_option relaxedAutoImplicit false

namespace Horn.Binary64

/-- The bits of a number without its sign. -/
def unsignedBits (x : Float) : UInt64 :=
  x.toBits &&& 0x7fffffffffffffff

/-- The bits of a number without its sign, as a natural number. -/
def magnitude (x : Float) : Nat :=
  (unsignedBits x).toNat

/-- Whether the sign bit is set; negative zero and some NaN have it set too. -/
def signed (x : Float) : Bool :=
  x.toBits >>> 63 == 1

/-- The magnitude that infinity has; every NaN lies above it and every finite number below. -/
def infinityMagnitude : Nat :=
  0x7ff0000000000000

/-- Neither infinite nor NaN. -/
def isFinite (x : Float) : Bool :=
  unsignedBits x < 0x7ff0000000000000

/-- Not a number. -/
def isNaN (x : Float) : Bool :=
  0x7ff0000000000000 < unsignedBits x

theorem isFinite_iff {x : Float} : isFinite x = true ↔ magnitude x < infinityMagnitude := by
  simp only [isFinite, decide_eq_true_eq, UInt64.lt_iff_toNat_lt]
  rfl

theorem isNaN_iff {x : Float} : isNaN x = true ↔ infinityMagnitude < magnitude x := by
  simp only [isNaN, decide_eq_true_eq, UInt64.lt_iff_toNat_lt]
  rfl

/-- The place of a number on the line: consecutive numbers have consecutive places, both zeros have
place 0, and a NaN has no place. -/
def rank (x : Float) : Option Int :=
  if isNaN x then none
  else if signed x then some (-(magnitude x : Int))
  else some (magnitude x : Int)

/-- The order of two numbers on the line; a NaN is not comparable. -/
def compare? (x y : Float) : Option Ordering :=
  if isNaN x || isNaN y then none
  else
    let a := unsignedBits x
    let b := unsignedBits y
    match signed x, signed y with
    | false, false => some (compare a b)
    | true, true => some (compare b a)
    | false, true => some (if a = 0 ∧ b = 0 then .eq else .gt)
    | true, false => some (if a = 0 ∧ b = 0 then .eq else .lt)

/-- Equal places; so every NaN agrees with every NaN, and the two zeros agree. -/
def same (x y : Float) : Bool :=
  match isNaN x, isNaN y with
  | true, true => true
  | false, false =>
    unsignedBits x == unsignedBits y && (unsignedBits x == 0 || signed x == signed y)
  | _, _ => false

/-- A hash of the place on the line. -/
def placeHash (x : Float) : UInt64 :=
  if isNaN x then 1 else if signed x then 0 - unsignedBits x else unsignedBits x

/-- The exact value of a finite number: its sign, and a significand `m` and an exponent `q` with
absolute value `m * 2 ^ q`. -/
structure Parts where
  negative : Bool
  significand : Nat
  exponent : Int
  deriving DecidableEq, Repr

/-- The leading bit of a significand, which the bits of a number leave out. -/
def hiddenBit : Nat :=
  0x10000000000000

/-- Reads sign, significand and exponent off the bits of a finite number. -/
def split (x : Float) : Parts :=
  let biased : Nat := magnitude x / hiddenBit
  let fraction : Nat := magnitude x % hiddenBit
  if biased = 0 then ⟨signed x, fraction, -1074⟩
  else ⟨signed x, hiddenBit + fraction, (biased : Int) - 1075⟩

theorem unsignedBits_eq_iff {x y : Float} :
    unsignedBits x = unsignedBits y ↔ magnitude x = magnitude y :=
  UInt64.toNat_inj.symm

theorem unsignedBits_eq_zero_iff {x : Float} : unsignedBits x = 0 ↔ magnitude x = 0 :=
  UInt64.toNat_inj.symm

theorem unsignedBits_lt_iff {x y : Float} :
    unsignedBits x < unsignedBits y ↔ magnitude x < magnitude y :=
  UInt64.lt_iff_toNat_lt

theorem same_eq (x y : Float) : same x y = (rank x == rank y) := by
  rw [Bool.eq_iff_iff]
  cases hx : isNaN x <;> cases hy : isNaN y <;> cases sx : signed x <;> cases sy : signed y <;>
    simp [same, rank, unsignedBits_eq_iff, unsignedBits_eq_zero_iff, *] <;> grind

theorem compare?_eq (x y : Float) :
    compare? x y = (rank x).bind fun a => (rank y).map (compare a) := by
  cases hx : isNaN x <;> cases hy : isNaN y <;> cases sx : signed x <;> cases sy : signed y <;>
    simp [compare?, rank, compare, compareOfLessAndEq, unsignedBits_lt_iff, unsignedBits_eq_iff,
      unsignedBits_eq_zero_iff, *] <;> grind

theorem same_self (x : Float) : same x x = true := by
  simp [same_eq]

theorem same_comm (x y : Float) : same x y = same y x := by
  simp only [same_eq, Bool.beq_eq_decide_eq, eq_comm]

theorem compare?_eq_of_same {x y : Float} (h : same x y = true) (z : Float) :
    compare? x z = compare? y z := by
  simp only [same_eq, beq_iff_eq] at h
  simp [compare?_eq, h]

theorem placeHash_eq_of_same {x y : Float} (h : same x y = true) : placeHash x = placeHash y := by
  cases hx : isNaN x <;> cases hy : isNaN y <;> cases sx : signed x <;> cases sy : signed y <;>
    simp_all [same, placeHash] <;> simp [← h.1, h.2]

end Horn.Binary64
