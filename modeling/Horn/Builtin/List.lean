import Horn.Builtin.Sequence
import Horn.Distinct
import Horn.Literal.Equality
import Horn.Sorting.Stable

/-!
Built-in operations on lists.
-/

set_option autoImplicit false
set_option relaxedAutoImplicit false

namespace Horn.Builtin

/-- An operation on a list that is the only input. -/
def onList (op : List Literal → Option Literal) : Operation
  | .list items :: _ => op items
  | _ => none

def head : Operation := onList List.head?

def tail : Operation :=
  onList fun
    | [] => none
    | _ :: rest => some (.list rest)

def push : Operation
  | [.list items, value] => some (.list (value :: items))
  | _ => none

def append : Operation
  | [.list items, value] => some (.list (items ++ [value]))
  | _ => none

/-- Inserts a value at a position up to the end of the list. -/
def put : Operation
  | [.list items, value, .integer place] =>
    (position? place).bind fun place =>
      if place ≤ items.length then some (.list (items.take place ++ value :: items.drop place))
      else none
  | _ => none

/-- Keeps the first of equal elements. -/
def unique : Operation :=
  onList fun items => some (.list (distinct items))

def reverse : Operation :=
  onList fun items => some (.list items.reverse)

mutual

/-- Whether a double occurs in a literal. -/
def hasFloat : Literal → Bool
  | .float _ => true
  | .list items => haveFloat items
  | .integer _ | .text _ => false

def haveFloat : List Literal → Bool
  | [] => false
  | item :: rest => hasFloat item || haveFloat rest

end

/-- Whether a literal comes before another one, if the two can be compared. -/
def precedes? (a b : Literal) : Option Bool :=
  (a.compare? b).map (· == .lt)

/-- Whether each element can be compared with the next one and does not come after it. -/
def isAscending : List Literal → Bool
  | a :: b :: rest => (a.compare? b).any (· != .gt) && isAscending (b :: rest)
  | _ => true

/-- The elements in ascending order, equal ones in the order in which they came, unless two of them
cannot be compared. Where doubles occur the order need not be consistent, since an integer is
compared with a double after it was rounded and with another integer exactly; then the sequence of
comparisons decides. -/
def sorted? (items : List Literal) : Option (List Literal) :=
  if haveFloat items then Sorting.sort? precedes? items
  else
    let sorted := items.mergeSort fun a b => a.compare? b != some .gt
    if isAscending sorted then some sorted else none

def sort : Operation :=
  onList fun items => (sorted? items).map .list

/-- The sum of numbers, which is the integer zero for an empty list. -/
def sum : Operation :=
  onList fun
    | [] => some (.integer 0)
    | items => add items

def join : Operation
  | [.list items, .text separator] =>
    some (.text (separator.intercalate (items.map Literal.plain)))
  | _ => none

/-- The length of the longest list that `init` builds. -/
def maxInitLength : Nat := 0x100000

/-- A list of equal values. -/
def init : Operation
  | [.integer count, value] =>
    (position? count).bind fun count =>
      if count ≤ maxInitLength then some (.list (List.replicate count value)) else none
  | _ => none

end Horn.Builtin
