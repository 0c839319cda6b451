import Horn.Sorting.Merging

/-!
Choosing the value by which a list is divided.

It is the median of three elements far apart, or on a long list the median of medians of that kind.
-/

set_option autoImplicit false
set_option relaxedAutoImplicit false

namespace Horn.Sorting

variable {α : Type}

/-- Whether one element of an array precedes another one. -/
def precedesAt? (precedes? : Precedence α) (items : Array α) (i j : Nat) : Option Bool := do
  precedes? (← items[i]?) (← items[j]?)

/-- The position of the median of three elements. -/
def medianOfThree? (precedes? : Precedence α) (items : Array α) (i j k : Nat) : Option Nat := do
  let first ← precedesAt? precedes? items i j
  let second ← precedesAt? precedes? items i k
  if first = second then
    return if (← precedesAt? precedes? items j k) = first then j else k
  else return i

/-- The length from which on medians are taken of medians. -/
def medianLength : Nat := 64

/-- The position of a median of elements from three stretches of the same length, which begin at the
given positions. -/
def median? (precedes? : Precedence α) (items : Array α) (i j k stretch : Nat) : Option Nat :=
  if medianLength ≤ stretch * 8 then do
    let step := stretch / 8
    let inside (start : Nat) : Option Nat :=
      median? precedes? items start (start + step * 4) (start + step * 7) step
    medianOfThree? precedes? items (← inside i) (← inside j) (← inside k)
  else medianOfThree? precedes? items i j k
termination_by stretch
decreasing_by all_goals simp only [medianLength] at *; omega

/-- The position of the value by which to divide a list. -/
def pivotPlace? (precedes? : Precedence α) (items : Array α) : Option Nat :=
  let stretch := items.size / 8
  if items.size < medianLength then
    medianOfThree? precedes? items 0 (stretch * 4) (stretch * 7)
  else median? precedes? items 0 (stretch * 4) (stretch * 7) stretch

end Horn.Sorting
