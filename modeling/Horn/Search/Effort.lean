import Horn.Search.Solution

/-!
The effort of a search, which stands for the time that it takes.

No clock runs beside a search. Whatever it does lets as much time go by as its effort is worth, and
the effort is reckoned from the size of what is copied or read: the values of a built-in, the
clauses that are tried, and the partial solutions that are made. So a search with a deadline and the
times that it shows depend on nothing but its input.
-/

set_option autoImplicit false
set_option relaxedAutoImplicit false

namespace Horn

namespace Literal

mutual

/-- The effort of going through a literal: a unit for every number, what is given for a text, and
four units for a list beside its elements. -/
def effort (ofText : String → Nat) : Literal → Nat
  | .integer _ | .float _ => 1
  | .text value => ofText value
  | .list items => addEffort ofText 4 items

/-- Adds the effort of going through the elements of a list. -/
def addEffort (ofText : String → Nat) (sum : Nat) : List Literal → Nat
  | [] => sum
  | item :: rest => addEffort ofText (sum + item.effort ofText) rest

end

/-- The effort of copying a literal; a text is copied in large pieces. -/
def copyEffort : Literal → Nat :=
  effort fun value => value.utf8ByteSize / 16 + 4

/-- The effort of reading a literal, texts character by character. -/
def readEffort : Literal → Nat :=
  effort fun value => value.utf8ByteSize / 2 + 4

end Literal

def Atom.effort : Atom → Nat
  | .var _ => 1
  | .lit value => value.copyEffort

/-- The effort of copying a fact. -/
def Fact.effort (f : Fact) : Nat :=
  f.args.foldl (fun sum arg => sum + arg.effort) 12

namespace Search

/-- The effort of a pass apart from what it copies and reads. -/
def passEffort : Nat := 128

/-- The effort of copying a partial solution. -/
def effort (solution : Solution) : Nat :=
  solution.foldl (fun sum g => sum + g.fact.effort) 0

/-- The effort of making partial solutions. -/
def childrenEffort (children : List Solution) : Nat :=
  children.foldl (fun sum child => sum + effort child) 0

/-- The effort of copying a goal and its partial solution for clauses the heads of which agree with
the goal. One copy of the solution counts as the child that it becomes. -/
def agreeingEffort (solution : Solution) (goal : Fact) : (agreeing : Nat) → Nat
  | 0 => 0
  | 1 => goal.effort
  | more + 2 => (more + 2) * goal.effort + (more + 1) * effort solution

/-- The effort of trying clauses for a goal of a partial solution. -/
def trialEffort (solution : Solution) (goal : Fact) (candidates : List Clause) : Nat :=
  let agreeing := candidates.countP fun c => Atom.agree c.head.args goal.args
  candidates.foldl (fun sum c => c.facts.foldl (fun sum f => sum + f.effort) (sum + 12))
    (agreeingEffort solution goal agreeing)

/-- The effort of handing its inputs to a built-in, which copies and reads them. -/
def inputEffort (inputs : List Literal) : Nat :=
  inputs.foldl (fun sum input => sum + input.copyEffort + input.readEffort) 0

/-- The effort of making the value of a built-in and putting it in its place. -/
def outputEffort (output : Literal) : Nat :=
  2 * output.copyEffort

/-- The time that a unit of effort takes. -/
def nanosPerUnit : Nat := 16

/-- The least time that a pass takes. -/
def leastPassNanos : Nat :=
  nanosPerUnit * passEffort

/-- The timeout for which a search may take twice the time. -/
def slackNanos : Nat := 0x4000000

/-- The time by the reckoning that a search with a timeout may take. An effort is a rough measure,
and rather too high than too low, so that time is seen to pass; in return a search is stopped late
rather than early, and the later, the longer its timeout is. -/
def allowedNanos (timeout : Nat) : Nat :=
  timeout + timeout * timeout / slackNanos

end Search

end Horn
