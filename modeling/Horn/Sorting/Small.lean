import Horn.Sorting.Merging

/-!
Sorting short lists.

Each half is sorted by insertion, after its first four elements if it has so many were sorted by a
fixed sequence of comparisons; then the halves are merged.
-/

set_option autoImplicit false
set_option relaxedAutoImplicit false

namespace Horn.Sorting

variable {α : Type}

/-- Two values in order. -/
def order? (precedes? : Precedence α) (a b : α) : Option (α × α) :=
  (precedes? b a).map fun swap => if swap then (b, a) else (a, b)

/-- Four values in order: two pairs are put in order, the least of the lower and the greatest of the
upper values go to the ends, and the two that are left are put in order. -/
def sortFour? (precedes? : Precedence α) (a b c d : α) : Option (List α) := do
  let (low₁, high₁) ← order? precedes? a b
  let (low₂, high₂) ← order? precedes? c d
  let lowSwap ← precedes? low₂ low₁
  let highSwap ← precedes? high₂ high₁
  let least := if lowSwap then low₂ else low₁
  let greatest := if highSwap then high₁ else high₂
  let left := if lowSwap then low₁ else if highSwap then low₂ else high₁
  let right := if highSwap then high₂ else if lowSwap then high₁ else low₂
  let (low, high) ← order? precedes? left right
  return [least, low, high, greatest]

/-- Sorts one half of a short list. -/
def sortHalf? (precedes? : Precedence α) (fromFour : Bool) (items : List α) : Option (List α) := do
  match fromFour, items with
  | true, a :: b :: c :: d :: rest =>
    let four ← sortFour? precedes? a b c d
    return (← insertAll? precedes? four.reverse rest).reverse
  | _, items => return (← insertAll? precedes? [] items).reverse

/-- The length from which on the halves of a short list are sorted from four elements. -/
def fourLength : Nat := 8

/-- Sorts a short list. -/
def sortSmall? (precedes? : Precedence α) (items : List α) : Option (List α) := do
  if items.length < 2 then return items
  let fromFour : Bool := fourLength ≤ items.length
  let half := items.length / 2
  let left ← sortHalf? precedes? fromFour (items.take half)
  let right ← sortHalf? precedes? fromFour (items.drop half)
  mergeInward? precedes? left right

end Horn.Sorting
