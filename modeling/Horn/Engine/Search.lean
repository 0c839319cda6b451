import Horn.Engine.Basic

/-!
Searches of an engine.

`Engine.searchWithin` bounds the passes of the loop by a number, and by a deadline if there is one;
`Engine.search` takes the deadline from the timeout of the configuration. Either way the engine
afterwards differs from before in the memo of the active table and in the counters only.
-/

set_option autoImplicit false
set_option relaxedAutoImplicit false

namespace Horn

open Builtin (Ambient)

/-- What a search warns of. -/
inductive Warning where
  | undefinedPredicate (key : String)
  | reservedQuery (key : String)
  deriving DecidableEq, Repr

/-- The text of a warning. -/
def Warning.message : Warning → String
  | .undefinedPredicate key => "undefined predicate " ++ key
  | .reservedQuery key => "cannot query reserved predicate " ++ key

/-- What a search yields: the facts found, in the order of discovery, or nothing if it did not end
in time; the warnings; and the ambient afterwards. -/
structure Report where
  found : Option (List Fact)
  warnings : List Warning
  ambient : Ambient

namespace Engine

/-- The clause that stands for a query: its head has the arguments of the goal, its body is the
goal. -/
def queryClause (goal : Fact) : Clause :=
  Clause.once (goal.withFunctor queryFunctor) [goal]

/-- Runs the search loop for a goal on the active table, so many passes at most. -/
def runWithin (e : Engine) (deadline : Option Nat) (passes : Nat) (goal : Fact) (stopEarly : Bool)
    (ambient : Ambient) : Search.Outcome :=
  let setting : Search.Setting := ⟨e.registry, e.table.program.pushFront (queryClause goal)⟩
  let ledger : Search.Ledger := ⟨e.table.memo, ambient, 0, .zero⟩
  Search.run setting stopEarly deadline passes (.start ledger (goal.withFunctor queryFunctor))

/-- The facts that an ended search found, under the functor of the goal. -/
def found? (goal : Fact) (stopEarly : Bool) : Search.Outcome → Option (List Fact)
  | .timedOut _ => none
  | .exhausted p => some ((p.answers stopEarly).map (Fact.ofLiterals goal.functor))

/-- Finds the instances of a goal that follow from the active table, unless a deadline passes or
the loop needs more passes than given. With `stopEarly` the first instance suffices. -/
def searchWithin (e : Engine) (deadline : Option Nat) (passes : Nat) (goal : Fact)
    (stopEarly : Bool) (ambient : Ambient) : Engine × Report :=
  if goal.functor = queryFunctor then
    ({ e with lastStats := .zero }, ⟨some [], [.reservedQuery goal.key], ambient⟩)
  else
    let outcome := e.runWithin deadline passes goal stopEarly ambient
    let ledger := outcome.progress.ledger
    let program := (e.table.program.pushFront (queryClause goal)).popFront
    ({ e.withTable ⟨program, ledger.memo⟩ with lastStats := ledger.stats },
      ⟨found? goal stopEarly outcome, ledger.stats.undefined.map .undefinedPredicate,
        ledger.ambient⟩)

/-- Finds the instances of a goal that follow from the active table, within the timeout. The passes
suffice for the deadline to pass, since each of them takes some time. -/
def search (e : Engine) (goal : Fact) (stopEarly : Bool) (ambient : Ambient) : Engine × Report :=
  let allowed := Search.allowedNanos e.config.searchTimeout.toNanos
  e.searchWithin (some (ambient.nanos + allowed)) (allowed / Search.leastPassNanos + 1) goal
    stopEarly ambient

end Engine

end Horn
