import Horn.Sorting.Pivot
import Horn.Sorting.Small

/-!
Sorting by division: the elements that precede a pivot are sorted apart from the others.

If no element precedes the pivot, the elements that the pivot does not precede are split off
instead; they are all alike and need no sorting. A list that was divided too often is left to
another way of sorting.
-/

set_option autoImplicit false
set_option relaxedAutoImplicit false

namespace Horn.Sorting

variable {α : Type}

/-- Parts a list by a test, behind the elements in `accepted` and `others`, of which the last one
comes first. -/
def partOnto? (test? : α → Option Bool) (accepted others : List α) :
    List α → Option (List α × List α)
  | [] => some (accepted, others)
  | x :: rest =>
    match test? x with
    | none => none
    | some true => partOnto? test? (x :: accepted) others rest
    | some false => partOnto? test? accepted (x :: others) rest

/-- Divides the elements around a pivot into those that precede it and the others with the pivot
among them, the order inside both parts being kept. -/
def divide? (precedes? : Precedence α) (before : List α) (pivot : α) (behind : List α) :
    Option (List α × List α) := do
  let (low, high) ← partOnto? (precedes? · pivot) [] [] before
  let (low, high) ← partOnto? (precedes? · pivot) low (pivot :: high) behind
  return (low.reverse, high.reverse)

/-- Divides the elements around a pivot into those that it does not precede, itself among them, and
the others, the order inside both parts being kept. -/
def divideBehind? (precedes? : Precedence α) (before : List α) (pivot : α) (behind : List α) :
    Option (List α × List α) := do
  let (high, low) ← partOnto? (precedes? pivot) [] [] before
  let (high, low) ← partOnto? (precedes? pivot) high (pivot :: low) behind
  return (low.reverse, high.reverse)

/-- The greatest length of a list that is sorted without being divided. -/
def smallLength : Nat := 32

/-- Sorts a list, dividing it so often at most. No element of the list precedes `floor`, if that is
given; a pivot that `floor` does not precede is then one of the lowest elements. -/
def sortByDivision? (precedes? : Precedence α) (fallback? : List α → Option (List α)) :
    (divisions : Nat) → (floor : Option α) → List α → Option (List α)
  | 0, _, items =>
    if items.length ≤ smallLength then sortSmall? precedes? items else fallback? items
  | divisions + 1, floor, items => do
    if items.length ≤ smallLength then sortSmall? precedes? items
    else
      let place ← pivotPlace? precedes? items.toArray
      let before := items.take place
      let pivot :: behind := items.drop place | none
      let aboveFloor ←
        match floor with
        | none => some true
        | some value => precedes? value pivot
      let parts ← if aboveFloor then divide? precedes? before pivot behind else some ([], items)
      if parts.1.isEmpty then
        let (alike, others) ← divideBehind? precedes? before pivot behind
        return alike ++ (← sortByDivision? precedes? fallback? divisions none others)
      else
        let high ← sortByDivision? precedes? fallback? divisions (some pivot) parts.2
        let low ← sortByDivision? precedes? fallback? divisions floor parts.1
        return low ++ high

/-- How often a list of this length may be divided. -/
def maxDivisions (length : Nat) : Nat :=
  2 * length.log2

end Horn.Sorting
