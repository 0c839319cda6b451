import Horn.Fact.Key
import Horn.Memo.Trie
import Horn.Refusal

/-!
The memo of a program: which predicates are memoized, and the proven tuples of each.

It is meant for predicates whose last argument is a function of the others; that is not checked.
-/

set_option autoImplicit false
set_option relaxedAutoImplicit false

namespace Horn

/-- Memoized predicate keys, and the tuples recorded for each key. -/
structure Memo where
  enabled : List String
  tries : List (String × Memo.Trie)
  deriving Inhabited

namespace Memo

def empty : Memo := ⟨[], []⟩

instance : EmptyCollection Memo := ⟨empty⟩

/-- Whether a predicate is memoized. -/
def isEnabled (m : Memo) (key : String) : Bool :=
  key ∈ m.enabled

/-- Whether a key can be memoized: a name without slashes and an arity of one at the least. -/
def isValidKey (key : String) : Bool :=
  match readKey? key with
  | some (name, arity) => name ≠ "" && '/' ∉ name.toList && arity ≠ 0
  | none => false

/-- The tuples recorded for a key. -/
def trie? (m : Memo) (key : String) : Option Trie :=
  m.tries.lookup key

/-- Forgets the tuples of a key. -/
def forget (m : Memo) (key : String) : Memo :=
  { m with tries := m.tries.filter fun entry => entry.1 ≠ key }

/-- Starts to memoize a predicate. -/
def enable (m : Memo) (key : String) : Except Refusal Memo :=
  if isValidKey key then
    if m.isEnabled key then .error (.alreadyMemoized key)
    else .ok { m with enabled := m.enabled ++ [key] }
  else .error (.invalidPredicateKey key)

/-- Stops to memoize a predicate and forgets its tuples. -/
def disable (m : Memo) (key : String) : Except Refusal Memo :=
  if m.isEnabled key then
    .ok { m.forget key with enabled := m.enabled.filter (· ≠ key) }
  else .error (.notMemoized key)

/-- Forgets all tuples; the same predicates stay memoized. -/
def clear (m : Memo) : Memo :=
  { m with tries := [] }

/-- Forgets the tuples of one predicate, which stays memoized. -/
def clearKey (m : Memo) (key : String) : Except Refusal Memo :=
  if m.isEnabled key then .ok (m.forget key) else .error (.notMemoized key)

/-- The memoized keys in the order of their characters. -/
def keys (m : Memo) : List String :=
  m.enabled.mergeSort fun a b => decide (a ≤ b)

/-- A recorded tuple of a predicate that agrees with the arguments. -/
def lookup (m : Memo) (key : String) (args : List Atom) : Option (List Literal) :=
  (m.trie? key).bind (·.find? args)

/-- Changes the tuples of a key, which are none at first. -/
def change (key : String) (f : Trie → Trie) : List (String × Trie) → List (String × Trie)
  | [] => [(key, f .empty)]
  | (other, trie) :: rest =>
    if other = key then (other, f trie) :: rest else (other, trie) :: change key f rest

/-- Records a proven tuple of a predicate. -/
def record (m : Memo) (key : String) (values : List Literal) : Memo :=
  { m with tries := change key (·.insert values) m.tries }

/-- How many tuples are recorded for a key. -/
def entries (m : Memo) (key : String) : Nat :=
  ((m.trie? key).map Trie.count).getD 0

end Memo

end Horn
