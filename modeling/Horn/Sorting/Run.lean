import Horn.Sorting.Merging

/-!
Runs: stretches of a list that are sorted already, or are to be sorted as one.

A list is cut into runs, and these are merged in the order of a nearly balanced tree: the depth of
a boundary between two runs depends on how their middles lie in the whole list.
-/

set_option autoImplicit false
set_option relaxedAutoImplicit false

namespace Horn.Sorting

variable {α : Type}

/-- A stretch of a list, and whether it is sorted. -/
structure Run (α : Type) where
  items : List α
  sorted : Bool

namespace Run

def length (run : Run α) : Nat :=
  run.items.length

/-- Takes elements as long as each one goes on from the one before it. The elements taken come
first, the last one at the front, and then what is left. -/
def extend? (goesOn? : Precedence α) (taken : List α) (last : α) :
    List α → Option (List α × List α)
  | [] => some (last :: taken, [])
  | next :: rest =>
    match goesOn? next last with
    | none => none
    | some true => extend? goesOn? (last :: taken) next rest
    | some false => some (last :: taken, next :: rest)

/-- The sorted stretch at the front of a list, put in ascending order, and what is left: a strictly
descending stretch is reversed. -/
def natural? (precedes? : Precedence α) : List α → Option (List α × List α)
  | a :: b :: rest =>
    match precedes? b a with
    | none => none
    | some true => extend? precedes? [a] b rest
    | some false =>
      (extend? (fun next last => (precedes? next last).map (!·)) [a] b rest).map
        fun (taken, rest) => (taken.reverse, rest)
  | items => some (items, [])

/-- How a list is cut where it is not sorted enough: the length that a sorted stretch needs, the
length of the pieces cut otherwise, and what is done to them. -/
structure Cutting (α : Type) where
  goodLength : Nat
  pieceLength : Nat
  finish? : List α → Option (Run α)

/-- The first run of a list, and what is left. -/
def first? (precedes? : Precedence α) (cutting : Cutting α) (items : List α) :
    Option (Run α × List α) :=
  let piece? : Option (Run α × List α) :=
    (cutting.finish? (items.take cutting.pieceLength)).map fun run =>
      (run, items.drop cutting.pieceLength)
  if items.length < cutting.goodLength then piece?
  else
    match natural? precedes? items with
    | none => none
    | some (run, rest) =>
      if cutting.goodLength ≤ run.length then some (⟨run, true⟩, rest) else piece?

/-- Cuts a list into runs, so many at most, behind those in `done`, of which the last one comes
first. -/
def cutOnto? (precedes? : Precedence α) (cutting : Cutting α) (done : List (Run α)) :
    (count : Nat) → List α → Option (List (Run α))
  | _, [] => some done.reverse
  | 0, _ => none
  | count + 1, items =>
    match first? precedes? cutting items with
    | none => none
    | some (run, rest) => cutOnto? precedes? cutting (run :: done) count rest

/-- Cuts a list into runs. -/
def cut? (precedes? : Precedence α) (cutting : Cutting α) (items : List α) :
    Option (List (Run α)) :=
  cutOnto? precedes? cutting [] items.length items

/-- How runs are merged: runs that are not sorted are joined up to a length, and sorted first if one
of both is sorted or they are too long together. -/
structure Merging (α : Type) where
  joinLength : Nat
  sort? : List α → Option (List α)

/-- The elements of a run in order. -/
def settle? (merging : Merging α) (run : Run α) : Option (List α) :=
  if run.sorted then some run.items else merging.sort? run.items

/-- Makes two neighbouring runs one. -/
def merge? (precedes? : Precedence α) (merging : Merging α) (left right : Run α) :
    Option (Run α) :=
  if merging.joinLength < left.length + right.length || left.sorted || right.sorted then do
    let left ← left.settle? merging
    let right ← right.settle? merging
    return ⟨← Sorting.merge? precedes? left right, true⟩
  else some ⟨left.items ++ right.items, false⟩

/-- How long the numbers are that tell how deep a boundary lies. -/
def depthBits : Nat := 64

/-- The depth of the boundary at `middle` between two runs from `start` on and up to `stop`, in a
list of `length` elements: the middles of both runs, scaled to the length of the list, agree in so
many leading bits. -/
def boundaryDepth (length start middle stop : Nat) : Nat :=
  let scale := (0x4000000000000000 + length - 1) / length
  let apart := (scale * (start + middle)) ^^^ (scale * (middle + stop))
  if apart = 0 then depthBits else depthBits - 1 - apart.log2

/-- Runs that wait for being merged with what comes behind them, the last one first, each with the
depth of the boundary behind it. -/
abbrev Waiting (α : Type) := List (Run α × Nat)

/-- Merges a run with the waiting ones in front of it whose boundaries are at least so deep. -/
def collapse? (precedes? : Precedence α) (merging : Merging α) (depth : Nat) :
    Waiting α → Run α → Option (Waiting α × Run α)
  | [], run => some ([], run)
  | (left, boundary) :: waiting, run =>
    if depth ≤ boundary then
      (merge? precedes? merging left run).bind (collapse? precedes? merging depth waiting)
    else some ((left, boundary) :: waiting, run)

/-- Merges a run that ends at `position` and the waiting ones with all runs behind it, in a list of
`length` elements. -/
def mergeAll? (precedes? : Precedence α) (merging : Merging α) (length : Nat) (position : Nat)
    (waiting : Waiting α) (run : Run α) : List (Run α) → Option (Run α)
  | [] => (collapse? precedes? merging 0 waiting run).map Prod.snd
  | next :: rest => do
    let depth :=
      boundaryDepth length (position - run.length) position (position + next.length)
    let (waiting, run) ← collapse? precedes? merging depth waiting run
    mergeAll? precedes? merging length (position + next.length) ((run, depth) :: waiting) next rest

end Run

end Horn.Sorting
