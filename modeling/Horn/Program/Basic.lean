import Horn.Program.Index
import Horn.Program.Recognition
import Horn.Refusal

/-!
Programs: clauses in the order in which they were asserted, each with a count of its assertions.

The order is the order in which alternatives are tried. An index finds the clauses of a predicate.
-/

set_option autoImplicit false
set_option relaxedAutoImplicit false

namespace Horn

/-- What an assertion did. -/
inductive Assertion where
  | inserted
  | duplicate (count : Nat)
  deriving DecidableEq, Repr

/-- What a retraction did. -/
inductive Retraction where
  | removed
  | decremented (count : Nat)
  deriving DecidableEq, Repr

/-- An ordered list of clauses with its index. -/
structure Program where
  clauses : Array Clause
  index : Index

namespace Program

def empty : Program := ⟨#[], .empty⟩

instance : EmptyCollection Program := ⟨empty⟩

instance : Inhabited Program := ⟨empty⟩

/-- The program of a clause array, indexed anew. -/
def ofClauses (clauses : Array Clause) : Program :=
  ⟨clauses, .ofClauses clauses.toList⟩

def size (p : Program) : Nat :=
  p.clauses.size

def isEmpty (p : Program) : Bool :=
  p.clauses.isEmpty

/-- The clauses of a predicate, in order. -/
def candidates (p : Program) (key : String) : List Clause :=
  (p.index.positions key).filterMap (p.clauses[·]?)

/-- Whether a predicate has a clause. -/
def defines (p : Program) (key : String) : Bool :=
  !(p.index.positions key).isEmpty

/-- The position of the clause that a declaration states. -/
def position? (p : Program) (head : Fact) (body : List Fact) : Option Nat :=
  (p.index.positions head.key).find? fun position =>
    p.clauses[position]?.any (·.isDeclaredBy head body)

/-- Asserts a clause: a new one goes to the end, a known one is counted once more. -/
def assert (p : Program) (head : Fact) (body : List Fact) : Program × Assertion :=
  match p.position? head body with
  | some position =>
    let clauses := p.clauses.modify position fun c => { c with count := c.count + 1 }
    ({ p with clauses }, .duplicate ((clauses[position]?.map Clause.count).getD 0))
  | none =>
    (⟨p.clauses.push (Clause.once head body), p.index.insert head.key p.clauses.size⟩, .inserted)

/-- Removes the clause at a position whatever its count. -/
def eraseAt (p : Program) (position : Nat) : Program :=
  ofClauses (p.clauses.eraseIdxIfInBounds position)

/-- Takes back one assertion of a clause; the last one removes it. -/
def retract (p : Program) (head : Fact) (body : List Fact) :
    Except Refusal (Program × Retraction) :=
  match p.position? head body with
  | none => .error .clauseNotFound
  | some position =>
    match (p.clauses[position]?.map Clause.count).getD 0 - 1 with
    | 0 => .ok (p.eraseAt position, .removed)
    | count + 1 =>
      let clauses := p.clauses.modify position fun c => { c with count := count + 1 }
      .ok ({ p with clauses }, .decremented (count + 1))

/-- Removes the clause at a position and returns it. -/
def retractAt (p : Program) (position : Nat) : Except Refusal (Program × Clause) :=
  match p.clauses[position]? with
  | none => .error (.indexOutOfBounds position p.size)
  | some c => .ok (p.eraseAt position, c)

/-- Puts a clause before all others. -/
def pushFront (p : Program) (c : Clause) : Program :=
  ofClauses (#[c] ++ p.clauses)

/-- Removes the first clause, if there is one. -/
def popFront (p : Program) : Program :=
  p.eraseAt 0

end Program

end Horn
