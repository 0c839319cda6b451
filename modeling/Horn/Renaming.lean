import Horn.Clause
import Horn.Fact.Numbering

/-!
Renaming the variables of a sequence of facts apart from others.

All names of the sequence are replaced at once by consecutive fresh numbers in order of first
occurrence, so names that are fresh numbers themselves are safe. Conditions stay where they are.
-/

set_option autoImplicit false
set_option relaxedAutoImplicit false

namespace Horn

def Atom.rename (change : VarName → VarName) : Atom → Atom
  | .var v => .var { v with name := change v.name }
  | .lit value => .lit value

def Fact.rename (change : VarName → VarName) (f : Fact) : Fact :=
  { f with args := f.args.map (Atom.rename change) }

/-- The fresh name of a variable: its number counted from `start`. -/
def Numbering.fresh (seen : Numbering) (start : Nat) (name : VarName) : VarName :=
  .fresh (start + seen.number name)

/-- Gives the variables of a sequence of facts the fresh numbers from `start` on; the second part
is the first number that is still free. -/
def renameApart (start : Nat) (facts : List Fact) : List Fact × Nat :=
  let names := Numbering.ofFacts facts
  (facts.map (Fact.rename (names.fresh start)), start + names.length)

/-- Renames head and body of a clause together; the second part is the first free number. -/
def Clause.renameApart (start : Nat) (c : Clause) : Clause × Nat :=
  let names := Numbering.ofFacts c.facts
  let change := Fact.rename (names.fresh start)
  ({ c with head := change c.head, body := c.body.map change }, start + names.length)

theorem renameApart_facts (start : Nat) (c : Clause) :
    renameApart start c.facts = ((c.renameApart start).1.facts, (c.renameApart start).2) := rfl

end Horn
