import Std.Data.HashMap
import Std.Data.HashSet
import Horn.Elementwise
import Horn.Fact.Basic
import Horn.Literal.Equality

/-!
Tuples of literals kept by their common beginnings.

A path is a beginning of recorded tuples, with its last value first. For every path the values that
go on from it are kept in the order in which they were first recorded, and so is the set of the
paths that are whole tuples. `Trie.find?` looks for a tuple in that order.
-/

set_option autoImplicit false
set_option relaxedAutoImplicit false

namespace Horn.Memo

/-- The beginnings of tuples, the values that go on from each, and which of them are whole tuples;
all of them with the last value first. -/
structure Trie where
  tuples : Std.HashSet (List Literal)
  choices : Std.HashMap (List Literal) (Array Literal)
  deriving Inhabited

namespace Trie

def empty : Trie := ⟨∅, ∅⟩

/-- Whether a tuple is recorded. -/
def contains (t : Trie) (values : List Literal) : Bool :=
  t.tuples.contains values.reverse

/-- The values that go on from a path, in the order in which they were first recorded. -/
def next (t : Trie) (path : List Literal) : Array Literal :=
  t.choices.getD path #[]

/-- Makes a value go on from a path, unless it does so already. -/
def offer (t : Trie) (path : List Literal) (value : Literal) : Trie :=
  if t.choices.contains (value :: path) then t
  else
    let grown := t.choices.alter path fun known => some ((known.getD #[]).push value)
    { t with choices := grown.insert (value :: path) #[] }

/-- Records the tuple that has these values behind a path. -/
def insertFrom (t : Trie) (path : List Literal) : List Literal → Trie
  | [] => { t with tuples := t.tuples.insert path }
  | value :: values => (t.offer path value).insertFrom (value :: path) values

/-- Records a tuple; the values that it shares with earlier tuples stay as they are. -/
def insert (t : Trie) (values : List Literal) : Trie :=
  t.insertFrom [] values

/-- The first recorded tuple that begins with a path and goes on as the arguments allow: where they
have a literal it is that literal, and a variable tries all values in order. -/
def findFrom? (t : Trie) (path : List Literal) : List Atom → Option (List Literal)
  | [] => if t.tuples.contains path then some path.reverse else none
  | .lit value :: args => t.findFrom? (value :: path) args
  | .var _ :: args => (t.next path).findSome? fun value => t.findFrom? (value :: path) args

/-- A recorded tuple that agrees with the arguments: their literals stay, and a variable takes the
value that was recorded first. -/
def find? (t : Trie) (args : List Atom) : Option (List Literal) :=
  t.findFrom? [] args

/-- How many tuples are recorded. -/
def count (t : Trie) : Nat :=
  t.tuples.size

@[simp] theorem contains_empty (values : List Literal) : empty.contains values = false := by
  simp [contains, empty]

@[simp] theorem count_empty : empty.count = 0 := by
  simp [count, empty]

@[simp] theorem tuples_offer (t : Trie) (path : List Literal) (value : Literal) :
    (t.offer path value).tuples = t.tuples := by
  rw [offer]
  split <;> rfl

theorem tuples_insertFrom (t : Trie) (path values : List Literal) :
    (t.insertFrom path values).tuples = t.tuples.insert (values.reverse ++ path) := by
  induction values generalizing t path with
  | nil => rfl
  | cons value values ih => rw [insertFrom, ih, tuples_offer]; simp

theorem contains_insert (t : Trie) (values others : List Literal) :
    (t.insert values).contains others =
      (values.reverse == others.reverse || t.contains others) := by
  rw [contains, insert, tuples_insertFrom, List.append_nil, Std.HashSet.contains_insert, contains]

theorem count_insert (t : Trie) (values : List Literal) :
    (t.insert values).count = if t.contains values then t.count else t.count + 1 := by
  rw [count, insert, tuples_insertFrom, List.append_nil, Std.HashSet.size_insert, contains, count]
  simp only [Std.HashSet.contains_iff_mem]

end Trie

end Horn.Memo
