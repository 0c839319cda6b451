/-!
Putting sorted lists together.

A sort asks whether one value precedes another, and the answer may be missing. Every step below
fails as soon as an answer does, and otherwise keeps the order of values that do not precede each
other.
-/

set_option autoImplicit false
set_option relaxedAutoImplicit false

namespace Horn.Sorting

/-- Whether a value has to stand before another one, if the two can be compared. -/
abbrev Precedence (α : Type) := α → α → Option Bool

variable {α : Type}

/-- Puts a value at the end of a sorted list, the last element of which comes first, and moves it
to the front past the elements that it precedes. -/
def insertLast? (precedes? : Precedence α) (value : α) : List α → Option (List α)
  | [] => some [value]
  | last :: rest =>
    match precedes? value last with
    | none => none
    | some true => (insertLast? precedes? value rest).map (last :: ·)
    | some false => some (value :: last :: rest)

/-- Inserts values one after the other into a sorted list, the last element of which comes first. -/
def insertAll? (precedes? : Precedence α) (done values : List α) : Option (List α) :=
  values.foldlM (fun done value => insertLast? precedes? value done) done

/-- Merges two sorted lists from their fronts, behind the elements in `done`, of which the last one
comes first. Of two elements the one on the right goes first only if it precedes the other. -/
def mergeOnto? (precedes? : Precedence α) (done : List α) : List α → List α → Option (List α)
  | [], right => some (done.reverseAux right)
  | left, [] => some (done.reverseAux left)
  | a :: left, b :: right =>
    match precedes? b a with
    | none => none
    | some true => mergeOnto? precedes? (b :: done) (a :: left) right
    | some false => mergeOnto? precedes? (a :: done) left (b :: right)

/-- Merges two sorted lists from their ends, in front of the elements in `done`; both lists are
given with the last element first. -/
def mergeBackOnto? (precedes? : Precedence α) (done : List α) :
    List α → List α → Option (List α)
  | [], right => some (right.reverseAux done)
  | left, [] => some (left.reverseAux done)
  | a :: left, b :: right =>
    match precedes? b a with
    | none => none
    | some true => mergeBackOnto? precedes? (a :: done) left (b :: right)
    | some false => mergeBackOnto? precedes? (b :: done) (a :: left) right

/-- Merges two sorted lists from the side of the shorter one. -/
def merge? (precedes? : Precedence α) (left right : List α) : Option (List α) :=
  if left.length ≤ right.length then mergeOnto? precedes? [] left right
  else mergeBackOnto? precedes? [] left.reverse right.reverse

/-- An unfinished merge: the elements put in place, the last one first, and what is left of either
list. -/
structure Partial (α : Type) where
  done : List α
  left : List α
  right : List α

/-- Takes so many elements from the fronts of two sorted lists. -/
def mergeSome? (precedes? : Precedence α) : (count : Nat) → Partial α → Option (Partial α)
  | 0, p => some p
  | count + 1, ⟨done, a :: left, b :: right⟩ =>
    match precedes? b a with
    | none => none
    | some true => mergeSome? precedes? count ⟨b :: done, a :: left, right⟩
    | some false => mergeSome? precedes? count ⟨a :: done, left, b :: right⟩
  | _ + 1, _ => none

/-- Takes so many elements from the ends of two sorted lists, which are given with the last element
first. -/
def mergeSomeBack? (precedes? : Precedence α) : (count : Nat) → Partial α → Option (Partial α)
  | 0, p => some p
  | count + 1, ⟨done, a :: left, b :: right⟩ =>
    match precedes? b a with
    | none => none
    | some true => mergeSomeBack? precedes? count ⟨a :: done, left, b :: right⟩
    | some false => mergeSomeBack? precedes? count ⟨b :: done, a :: left, right⟩
  | _ + 1, _ => none

/-- Merges two sorted lists from both sides at once, where the right one has as many elements as the
left one or one more. The two sides have to meet. -/
def mergeInward? (precedes? : Precedence α) (left right : List α) : Option (List α) := do
  let half := left.length
  let front ← mergeSome? precedes? half ⟨[], left, right⟩
  let back ← mergeSomeBack? precedes? half ⟨[], left.reverse, right.reverse⟩
  let taken := (half - front.left.length) + (half - back.left.length)
  let join (middle : List α) : List α := front.done.reverse ++ middle ++ back.done
  if left.length = right.length then
    if taken = half then some (join []) else none
  else if taken < half then
    if taken + 1 = half then some (join (front.left.take 1)) else none
  else if taken = half then some (join (front.right.take 1))
  else none

end Horn.Sorting
