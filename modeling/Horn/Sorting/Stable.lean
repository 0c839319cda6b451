import Horn.Sorting.Division
import Horn.Sorting.Run

/-!
A stable sort that makes a fixed sequence of comparisons.

Short lists are sorted by insertion. A longer list is cut into runs, which are merged; stretches
that are not sorted are joined and sorted by division. If precedence is a consistent order, this is
the one stable arrangement of the list; if it is not, the outcome still depends on the list alone.
-/

set_option autoImplicit false
set_option relaxedAutoImplicit false

namespace Horn.Sorting

variable {α : Type}

/-- The greatest length of a list that is sorted by insertion. -/
def insertionLength : Nat := 20

/-- The greatest length of a list all pieces of which are sorted one by one. -/
def eagerLength : Nat := 64

/-- The length from which on the needed length of a sorted stretch grows with the list. -/
def longLength : Nat := 4096

/-- A rough square root of a positive number. -/
def roughRoot (n : Nat) : Nat :=
  let shift := (1 + n.log2) / 2
  ((1 <<< shift) + (n >>> shift)) / 2

/-- How long a sorted stretch of a list with this length has to be in order to count as a run. -/
def goodRunLength (length : Nat) : Nat :=
  if length ≤ longLength then min (length - length / 2) eagerLength else roughRoot length

/-- How many elements of a list with this length are joined before they are sorted: the room that is
set aside for merging. -/
def joinLength (length : Nat) : Nat :=
  max 128 (max (length - length / 2) (min length 250000))

/-- Sorts a list by runs: pieces without a sorted stretch are sorted one by one. -/
def sortByRuns? (precedes? : Precedence α) (items : List α) : Option (List α) := do
  let length := items.length
  let finish? (piece : List α) : Option (Run α) :=
    (sortSmall? precedes? piece).map (⟨·, true⟩)
  let runs ← Run.cut? precedes? ⟨goodRunLength length, smallLength, finish?⟩ items
  let first :: rest := runs | return []
  let whole ← Run.mergeAll? precedes? ⟨length, some⟩ length first.length [] first rest
  return whole.items

/-- Sorts a list by division, and by runs where that leads nowhere. -/
def sortDividing? (precedes? : Precedence α) (items : List α) : Option (List α) :=
  sortByDivision? precedes? (sortByRuns? precedes?) (maxDivisions items.length) none items

/-- Sorts a list by runs: pieces without a sorted stretch are joined and sorted by division. -/
def sortLong? (precedes? : Precedence α) (items : List α) : Option (List α) := do
  let length := items.length
  let good := goodRunLength length
  let runs ← Run.cut? precedes? ⟨good, good, fun piece => some ⟨piece, false⟩⟩ items
  let first :: rest := runs | return []
  let merging : Run.Merging α := ⟨joinLength length, sortDividing? precedes?⟩
  (← Run.mergeAll? precedes? merging length first.length [] first rest).settle? merging

/-- Sorts a list, unless two elements that are compared cannot be. -/
def sort? (precedes? : Precedence α) (items : List α) : Option (List α) :=
  if items.length ≤ insertionLength then (insertAll? precedes? [] items).map List.reverse
  else if items.length ≤ eagerLength then sortByRuns? precedes? items
  else sortLong? precedes? items

end Horn.Sorting
