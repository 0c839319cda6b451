import Horn.Clause

/-!
The index of a clause list: for each predicate key the positions of the clauses with that head.
-/

set_option autoImplicit false
set_option relaxedAutoImplicit false

namespace Horn

/-- Positions by key, in ascending order; a key without positions has no entry. -/
structure Index where
  entries : List (String × List Nat)
  deriving Repr

namespace Index

def empty : Index := ⟨[]⟩

/-- The positions of a key. -/
def positions (index : Index) (key : String) : List Nat :=
  (index.entries.lookup key).getD []

/-- Adds a position behind those of its key. -/
def insertEntry (key : String) (position : Nat) :
    List (String × List Nat) → List (String × List Nat)
  | [] => [(key, [position])]
  | (other, places) :: rest =>
    if other = key then (other, places ++ [position]) :: rest
    else (other, places) :: insertEntry key position rest

def insert (index : Index) (key : String) (position : Nat) : Index :=
  ⟨insertEntry key position index.entries⟩

/-- The index of a list whose first clause stands at `start`, added to a given one. -/
def extend (index : Index) (start : Nat) : List Clause → Index
  | [] => index
  | c :: rest => (index.insert c.key start).extend (start + 1) rest

/-- The index of a clause list. -/
def ofClauses (clauses : List Clause) : Index :=
  empty.extend 0 clauses

end Index

end Horn
