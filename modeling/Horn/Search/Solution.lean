import Horn.Builtin.Registry
import Horn.Program.Basic
import Horn.Unification

/-!
Partial solutions: the goals of a query that are discharged or still open.

The first goal stands for the query. The goals that a discharged goal expanded into follow it with a
greater depth, so the run of deeper goals behind a goal holds what is left of its expansion.
-/

set_option autoImplicit false
set_option relaxedAutoImplicit false

namespace Horn.Search

/-- A goal, whether it is discharged, and how deep below the query it stands. -/
structure Goal where
  fact : Fact
  resolved : Bool
  depth : Nat
  deriving Inhabited

/-- A conjunction of goals, the first of which stands for the query. -/
abbrev Solution := List Goal

namespace Goal

/-- A goal that is still to be proven. -/
def pending (depth : Nat) (fact : Fact) : Goal :=
  ⟨fact, false, depth⟩

/-- Substitutes in the fact of a goal. A goal without bound variables is handed on as it is, so that
solutions share what they have in common. -/
def substitute (b : Bindings) (g : Goal) : Goal :=
  if b.touches g.fact then { g with fact := b.substitute g.fact } else g

theorem substitute_eq (b : Bindings) (g : Goal) :
    g.substitute b = { g with fact := b.substitute g.fact } := by
  rw [substitute]
  split
  · rfl
  · rw [Bindings.substitute_eq_self (Bool.eq_false_iff.2 ‹_›)]

def key (g : Goal) : String :=
  g.fact.key

end Goal

/-- Whether a goal is still to be proven. -/
def hasPending (solution : Solution) : Bool :=
  solution.any fun g => !g.resolved

/-- Whether an open goal is left of the expansion of a goal at this depth, given the goals behind
it. -/
def pendingBelow (depth : Nat) (behind : Solution) : Bool :=
  hasPending (behind.takeWhile fun g => depth < g.depth)

/-- Whether a discharged goal is kept: its predicate is memoized and its expansion is not proven
yet. -/
def isAwaited (memoized : String → Bool) (g : Goal) (behind : Solution) : Bool :=
  memoized g.key && pendingBelow g.depth behind

/-- Drops the discharged goals that are not awaited. -/
def dropDischarged (memoized : String → Bool) : Solution → Solution
  | [] => []
  | g :: behind =>
    if !g.resolved || isAwaited memoized g behind then g :: dropDischarged memoized behind
    else dropDischarged memoized behind

/-- The ground goals of memoized predicates whose expansions are proven, in order. -/
def provenGoals (memoized : String → Bool) : Solution → List Fact
  | [] => []
  | g :: behind =>
    if g.resolved && memoized g.key && !pendingBelow g.depth behind && g.fact.isGround then
      g.fact :: provenGoals memoized behind
    else provenGoals memoized behind

/-- The least depth among the goals up to the first open one, if a goal is open. -/
def leastDepth : Solution → Option Nat
  | [] => none
  | g :: behind => if g.resolved then (leastDepth behind).map (min g.depth) else some g.depth

theorem pendingBelow_eq (depth : Nat) (behind : Solution) :
    pendingBelow depth behind = (leastDepth behind).any (depth < ·) := by
  induction behind with
  | nil => rfl
  | cons g behind ih =>
    rw [pendingBelow] at ih ⊢
    by_cases hd : depth < g.depth
    · rw [List.takeWhile_cons_of_pos (by simpa using hd), hasPending, List.any_cons, ← hasPending,
        ih, leastDepth]
      cases g.resolved with
      | false => simp [hd]
      | true =>
        cases leastDepth behind with
        | none => rfl
        | some least =>
          show (false || decide (depth < least)) = decide (depth < min g.depth least)
          rw [Bool.false_or]
          exact decide_eq_decide.2 (by omega)
    · rw [List.takeWhile_cons_of_neg (by simpa using hd), leastDepth]
      cases g.resolved with
      | false => simp [hasPending, hd]
      | true =>
        cases leastDepth behind with
        | none => rfl
        | some least => exact (decide_eq_false (by omega : ¬ depth < min g.depth least)).symm

/-- What becomes of goals: those that are kept, whether these are all of them, the facts that are
proven, and the least depth up to the first open goal. -/
structure Compaction where
  kept : Solution
  isWhole : Bool
  proven : List Fact
  leastDepth : Option Nat

/-- Drops the discharged goals that are not awaited and finds the proven facts, in one pass from the
last goal to the first. Where no goal is dropped the list itself is handed on. -/
def compaction (memoized : String → Bool) (goals : Solution) : Compaction :=
  match goals with
  | [] => ⟨[], true, [], none⟩
  | g :: behind =>
    let c := compaction memoized behind
    let keep (least : Option Nat) : Compaction :=
      ⟨if c.isWhole then goals else g :: c.kept, c.isWhole, c.proven, least⟩
    if !g.resolved then keep (some g.depth)
    else
      let least := c.leastDepth.map (min g.depth)
      if memoized g.key then
        if c.leastDepth.any (g.depth < ·) then keep least
        else ⟨c.kept, false, if g.fact.isGround then g.fact :: c.proven else c.proven, least⟩
      else ⟨c.kept, false, c.proven, least⟩

theorem compaction_eq (memoized : String → Bool) (goals : Solution) :
    (compaction memoized goals).kept = dropDischarged memoized goals ∧
      (compaction memoized goals).proven = provenGoals memoized goals ∧
      (compaction memoized goals).leastDepth = leastDepth goals ∧
      ((compaction memoized goals).isWhole = true → dropDischarged memoized goals = goals) := by
  induction goals with
  | nil => simp [compaction, dropDischarged, provenGoals, leastDepth]
  | cons g behind ih =>
    obtain ⟨kept, proven, least, whole⟩ := ih
    rw [compaction, dropDischarged, provenGoals, leastDepth, isAwaited, pendingBelow_eq]
    simp only [kept, proven, least]
    cases hw : (compaction memoized behind).isWhole <;> cases g.resolved <;>
      cases memoized g.key <;> cases (leastDepth behind).any (g.depth < ·) <;>
      cases g.fact.isGround <;> simp_all

/-- Keeps the first goal, the open ones and the awaited ones, and returns with them the facts to
record; the first goal is never one of them. -/
def compact (memoized : String → Bool) : Solution → Solution × List Fact
  | [] => ([], [])
  | query :: goals =>
    let c := compaction memoized goals
    (query :: c.kept, c.proven)

theorem compact_cons (memoized : String → Bool) (query : Goal) (goals : Solution) :
    compact memoized (query :: goals) =
      (query :: dropDischarged memoized goals, provenGoals memoized goals) := by
  obtain ⟨kept, proven, -, -⟩ := compaction_eq memoized goals
  rw [compact, kept, proven]

/-- The goals after a substitution, unless none of them changes. -/
def substituted? (b : Bindings) : Solution → Option Solution
  | [] => none
  | g :: behind =>
    match substituted? b behind with
    | some changed => some (g.substitute b :: changed)
    | none => if b.touches g.fact then some (g.substitute b :: behind) else none

/-- Substitutes in all goals. -/
def substituteAll (b : Bindings) (solution : Solution) : Solution :=
  (substituted? b solution).getD solution

theorem substituteAll_eq (b : Bindings) (solution : Solution) :
    substituteAll b solution = solution.map (Goal.substitute b) := by
  induction solution with
  | nil => rfl
  | cons g behind ih =>
    rw [substituteAll] at ih ⊢
    rw [substituted?, List.map_cons, ← ih]
    cases substituted? b behind with
    | some changed => rfl
    | none => by_cases h : b.touches g.fact = true <;> simp [h, Goal.substitute]

/-- Substitutes in all goals, marks the goal at a position as discharged and puts its expansion
behind it. -/
def discharge (b : Bindings) (body : List Fact) : Nat → Solution → Solution
  | _, [] => []
  | 0, g :: behind =>
    { g.substitute b with resolved := true } ::
      (body.map (Goal.pending (g.depth + 1)) ++ substituteAll b behind)
  | position + 1, g :: behind => g.substitute b :: discharge b body position behind

/-- Whether the first goal is ground. -/
def isAnswer (solution : Solution) : Bool :=
  solution.head?.any fun query => query.fact.isGround

end Horn.Search
