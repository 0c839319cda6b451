import Horn.Memo.Basic
import Horn.Search.Effort
import Horn.Search.Stats

/-!
The expansion of a partial solution by one goal.

A built-in whose inputs are ground comes first; otherwise the first open goal of a program predicate
is answered from the memo or resolved with every clause of its predicate, in order.
-/

set_option autoImplicit false
set_option relaxedAutoImplicit false

namespace Horn.Search

open Builtin (Registry Ambient)

/-- What a search reads: the built-ins, and the program with the clause of the query in front. -/
structure Setting where
  registry : Registry
  program : Program

/-- What a search writes while it goes on: proven facts, printed lines and the random state, the
next fresh number, and the counters. -/
structure Ledger where
  memo : Memo
  ambient : Ambient
  nextVar : Nat
  stats : Stats

namespace Setting

def isBuiltin (s : Setting) (f : Fact) : Bool :=
  s.registry.contains f.functor f.arity

/-- Whether a goal can be resolved at all: its predicate is a built-in or has a clause. -/
def isDefined (s : Setting) (f : Fact) : Bool :=
  s.isBuiltin f || s.program.defines f.key

end Setting

/-- Whether all arguments but the last are literals. -/
def haveInputs : List Atom → Bool
  | [] | [_] => true
  | input :: args => input.isConstant && haveInputs args

/-- Whether the inputs of a built-in are ground. -/
def isEvaluable (f : Fact) : Bool :=
  haveInputs f.args

/-- The position of the goal to expand, and how. -/
inductive Choice where
  | builtin (position : Nat)
  | clauses (position : Nat)
  deriving DecidableEq, Repr

/-- Chooses the first open built-in with ground inputs, or else the first open goal of a program
predicate. There is none if nothing is open or only built-ins without their inputs are left. -/
def choose (s : Setting) (solution : Solution) : Option Choice :=
  let isReady (g : Goal) : Bool := !g.resolved && isEvaluable g.fact && s.isBuiltin g.fact
  let isClausal (g : Goal) : Bool := !g.resolved && !s.isBuiltin g.fact
  match solution.findIdx? isReady with
  | some position => some (.builtin position)
  | none => (solution.findIdx? isClausal).map .clauses

/-- What becomes of an attempt to discharge a goal: a condition fails; the body has a goal whose
predicate is undefined; or the goal is discharged, which may prove memoized facts. There is no child
then if nothing is open any more but the query is not ground. -/
inductive Attempt where
  | rejected
  | undefined (key : String)
  | discharged (proven : List Fact) (child : Option Solution)

/-- The new partial solution, if there is one. -/
def Attempt.child? : Attempt → Option Solution
  | .discharged _ child => child
  | _ => none

/-- Discharges the goal at a position by a clause with this body, under the bindings that unify the
goal with the head of the clause. -/
def derive (s : Setting) (memoized : String → Bool) (solution : Solution) (position : Nat)
    (b : Bindings) (body : List Fact) : Attempt :=
  if body.all b.respects then
    let body := body.map b.substitute
    match body.find? fun f => !s.isDefined f with
    | some f => .undefined f.key
    | none =>
      if solution.all fun g => b.respects g.fact then
        let (child, proven) := compact memoized (discharge b body position solution)
        .discharged proven (if hasPending child || isAnswer child then some child else none)
      else .rejected
  else .rejected

/-- Tries to discharge a goal by a clause whose variables are apart from those of the solution. -/
def attempt (s : Setting) (memoized : String → Bool) (solution : Solution) (position : Nat)
    (goal : Fact) (head : Fact) (body : List Fact) : Attempt :=
  match unify head goal with
  | none => .rejected
  | some b => derive s memoized solution position b body

namespace Ledger

def count (l : Ledger) (change : Stats → Stats) : Ledger :=
  { l with stats := change l.stats }

/-- Lets the time go by that an effort takes. -/
def spend (l : Ledger) (effort : Nat) : Ledger :=
  { l with ambient := l.ambient.elapse (nanosPerUnit * effort) }

/-- Records a proven fact under the key of its predicate. -/
def recordFact (memo : Memo) (f : Fact) : Memo :=
  match f.literals? with
  | some values => memo.record f.key values
  | none => memo

/-- Enters what an attempt reported or proved. -/
def enter (l : Ledger) : Attempt → Ledger
  | .rejected => l
  | .undefined key => l.count (·.report key)
  | .discharged proven _ =>
    let effort := proven.foldl (fun sum f => sum + f.effort) 0
    { l with memo := proven.foldl recordFact l.memo }.spend effort

/-- Enters attempts in order and collects their children. -/
def enterAll (l : Ledger) (attempts : List Attempt) : List Solution × Ledger :=
  (attempts.filterMap Attempt.child?, attempts.foldl enter l)

end Ledger

/-- Renames clauses apart, one after the other, from a first fresh number on. -/
def renameClauses : Nat → List Clause → List Clause × Nat
  | next, [] => ([], next)
  | next, c :: rest =>
    let (renamed, next) := c.renameApart next
    let (others, next) := renameClauses next rest
    (renamed :: others, next)

/-- Expands a built-in goal: its value is unified with its last argument. -/
def expandBuiltin (s : Setting) (l : Ledger) (solution : Solution) (position : Nat) (goal : Fact) :
    List Solution × Ledger :=
  let inputs := goal.args.dropLast.filterMap Atom.literal?
  let l := l.spend (inputEffort inputs)
  let (value, ambient) := s.registry.evaluate goal.functor inputs l.ambient
  let l := { l with ambient }.count fun c => { c with builtinCalls := c.builtinCalls + 1 }
  match value with
  | none => ([], l)
  | some output =>
    let head := Fact.ofLiterals goal.functor (inputs ++ [output])
    let l := l.spend (outputEffort output)
    l.enterAll [attempt s l.memo.isEnabled solution position goal head []]

/-- Expands a goal by every clause of its predicate, in order. -/
def expandClauses (s : Setting) (l : Ledger) (solution : Solution) (position : Nat) (goal : Fact) :
    List Solution × Ledger :=
  let candidates := s.program.candidates goal.key
  let (renamed, nextVar) := renameClauses l.nextVar candidates
  let l := { l with nextVar }.count fun c =>
    { c with
      clauseScans := c.clauseScans + 1
      clausesTested := c.clausesTested + candidates.length }
  let l := l.spend (trialEffort solution goal candidates)
  l.enterAll (renamed.map fun c =>
    attempt s l.memo.isEnabled solution position goal c.head c.body)

/-- The recorded tuple that answers a goal of a memoized predicate. -/
def cachedTuple? (l : Ledger) (goal : Fact) : Option (List Literal) :=
  if l.memo.isEnabled goal.key then l.memo.lookup goal.key goal.args else none

/-- Expands a goal of a program predicate, from the memo if it has an answer. -/
def expandGoal (s : Setting) (l : Ledger) (solution : Solution) (position : Nat) (goal : Fact) :
    List Solution × Ledger :=
  match cachedTuple? l goal with
  | some values =>
    let l := (l.count fun c => { c with memoHits := c.memoHits + 1 }).spend goal.effort
    let head := Fact.ofLiterals goal.functor values
    l.enterAll [attempt s l.memo.isEnabled solution position goal head []]
  | none => expandClauses s l solution position goal

/-- Expands a partial solution into its children, in order. -/
def expand (s : Setting) (l : Ledger) (solution : Solution) : List Solution × Ledger :=
  match choose s solution with
  | none => ([], l)
  | some (.builtin position) =>
    match solution[position]? with
    | some g => expandBuiltin s l solution position g.fact
    | none => ([], l)
  | some (.clauses position) =>
    match solution[position]? with
    | some g => expandGoal s l solution position g.fact
    | none => ([], l)

end Horn.Search
