import Std.Data.HashSet
import Horn.Distinct
import Horn.Elementwise
import Horn.Search.Expansion
import Horn.Search.Fingerprint
import Horn.Search.Queue

/-!
The search loop: partial solutions are expanded in the order in which they were created.

A solution that looks like an earlier one is dropped. The loop ends when nothing is open, or when
one answer suffices and no older solution is open that could have led to an earlier one.
-/

set_option autoImplicit false
set_option relaxedAutoImplicit false

namespace Horn.Search

/-- A search under way: the open solutions with the numbers under which they were created; the
finished ones, the last one first, and the number of the first of them; how many were created; and
the fingerprints of all. -/
structure Progress where
  ledger : Ledger
  opened : Queue (Nat × Solution)
  finished : List Solution
  firstFinished : Option Nat
  created : Nat
  seen : Std.HashSet Fingerprint

namespace Progress

/-- The start of a search for a fact that stands for the query. -/
def start (ledger : Ledger) (query : Fact) : Progress :=
  let solution := [Goal.pending 0 query]
  { ledger
    opened := Queue.empty.push (0, solution)
    finished := []
    firstFinished := none
    created := 1
    seen := (∅ : Std.HashSet Fingerprint).insert (fingerprint solution) }

/-- Files a new partial solution, whose fingerprint is among those seen already. -/
def file (p : Progress) (child : Solution) : Progress :=
  if hasPending child then
    { p with opened := p.opened.push (p.created, child), created := p.created + 1 }
  else
    { p with
      finished := child :: p.finished
      firstFinished := p.firstFinished <|> some p.created
      created := p.created + 1 }

/-- Takes in a new partial solution, unless one that looks alike was there before. -/
def takeIn (p : Progress) (child : Solution) : Progress :=
  let (known, seen) := p.seen.containsThenInsert (fingerprint child)
  let p := { p with seen }
  if known then
    { p with
      ledger := p.ledger.count fun c => { c with prunedDuplicates := c.prunedDuplicates + 1 } }
  else p.file child

/-- The solution to expand next and the ones behind it, unless the search is at its end. -/
def next? (stopEarly : Bool) (p : Progress) : Option (Solution × Queue (Nat × Solution)) :=
  match p.opened.pop? with
  | none => none
  | some ((number, solution), behind) =>
    if stopEarly && p.firstFinished.any (· < number) then none else some (solution, behind)

/-- Expands one solution and takes in its children; meanwhile time goes by. -/
def advance (s : Setting) (p : Progress) (solution : Solution) (behind : Queue (Nat × Solution)) :
    Progress :=
  let ledger := p.ledger.count fun c => { c with iterations := c.iterations + 1 }
  let (children, ledger) := expand s ledger solution
  let ledger := ledger.spend (passEffort + childrenEffort children)
  children.foldl takeIn { p with ledger, opened := behind }

/-- Whether a deadline has passed. -/
def isLate (deadline : Option Nat) (p : Progress) : Bool :=
  deadline.any (· ≤ p.ledger.ambient.nanos)

/-- The arguments of a solution without open goals: the values for the arguments of the query. -/
def tuple? (solution : Solution) : Option (List Literal) :=
  solution.head?.bind fun query => query.fact.literals?

/-- The tuples of values that answer the query, each once, in the order in which they were found;
only the first if one suffices. -/
def answers (stopEarly : Bool) (p : Progress) : List (List Literal) :=
  let found := distinct (p.finished.reverse.filterMap tuple?)
  if stopEarly then found.take 1 else found

end Progress

/-- How a search ended. -/
inductive Outcome where
  | exhausted (progress : Progress)
  | timedOut (progress : Progress)

/-- The state in which a search ended. -/
def Outcome.progress : Outcome → Progress
  | .exhausted progress | .timedOut progress => progress

/-- Runs the loop until it is at its end or a deadline has passed, so many passes at most; the pass
that finds the search at its end is one of them. -/
def run (s : Setting) (stopEarly : Bool) (deadline : Option Nat) :
    (passes : Nat) → Progress → Outcome
  | 0, p => .timedOut p
  | passes + 1, p =>
    if p.isLate deadline then .timedOut p
    else
      match p.next? stopEarly with
      | none => .exhausted p
      | some (solution, behind) =>
        run s stopEarly deadline passes (p.advance s solution behind)

end Horn.Search
