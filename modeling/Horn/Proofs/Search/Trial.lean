import Horn.Proofs.Search.Resolution

/-!
With what a goal is tried.

An expansion tries one goal with some clauses in order: `clausesFor` lists them and `ledgerFor` is the
ledger before the first is tried, all but its ambient. `expand_eq` puts every expansion into this form,
so two expansions are compared by comparing these.
-/

set_option autoImplicit false
set_option relaxedAutoImplicit false

namespace Horn.Search

/-! ### Ledgers but for the ambient -/

/-- Ledgers that differ in the ambient at the most. -/
structure Ledger.Agrees (l l' : Ledger) : Prop where
  memo : l.memo = l'.memo
  nextVar : l.nextVar = l'.nextVar
  stats : l.stats = l'.stats

namespace Ledger.Agrees

variable {l l' l'' : Ledger}

theorem refl (l : Ledger) : l.Agrees l :=
  ⟨rfl, rfl, rfl⟩

theorem symm (h : l.Agrees l') : l'.Agrees l :=
  ⟨h.memo.symm, h.nextVar.symm, h.stats.symm⟩

theorem trans (h : l.Agrees l') (k : l'.Agrees l'') : l.Agrees l'' :=
  ⟨h.memo.trans k.memo, h.nextVar.trans k.nextVar, h.stats.trans k.stats⟩

theorem count (h : l.Agrees l') (change : Stats → Stats) : (l.count change).Agrees (l'.count change) :=
  ⟨h.memo, h.nextVar, congrArg change h.stats⟩

theorem spend (h : l.Agrees l') (effort effort' : Nat) : (l.spend effort).Agrees (l'.spend effort') :=
  ⟨h.memo, h.nextVar, h.stats⟩

/-- Attempts that prove the same facts are entered alike, whatever they make. -/
theorem enter_discharged (h : l.Agrees l') (proven : List Fact) (child child' : Option Solution) :
    (l.enter (.discharged proven child)).Agrees (l'.enter (.discharged proven child')) :=
  ⟨congrArg (proven.foldl Ledger.recordFact) h.memo, h.nextVar, h.stats⟩

theorem enter (h : l.Agrees l') (a : Attempt) : (l.enter a).Agrees (l'.enter a) := by
  cases a with
  | rejected => exact h
  | undefined key => exact h.count (·.report key)
  | discharged proven child => exact h.enter_discharged proven child child

theorem enterAll (h : l.Agrees l') (as : List Attempt) : (l.enterAll as).2.Agrees (l'.enterAll as).2 := by
  change (as.foldl Ledger.enter l).Agrees (as.foldl Ledger.enter l')
  induction as generalizing l l' with
  | nil => exact h
  | cons a rest ih => exact ih (h.enter a)

end Ledger.Agrees

/-! ### Clauses -/

def value? (s : Setting) (l : Ledger) (goal : Fact) : Option Literal :=
  (s.registry.evaluate goal.functor (inputsOf goal) (l.spend (inputEffort (inputsOf goal))).ambient).1

/-- The clauses, given by head and body, with which a goal is tried, in order. -/
def clausesFor (s : Setting) (l : Ledger) (goal : Fact) : List (Fact × List Fact) :=
  if s.isBuiltin goal then
    (value? s l goal).toList.map fun output =>
      (Fact.ofLiterals goal.functor (inputsOf goal ++ [output]), [])
  else
    match cachedTuple? l goal with
    | some values => [(Fact.ofLiterals goal.functor values, [])]
    | none => renamedClauses s l goal

/-- The ledger with which a goal is tried, before time goes by. -/
def ledgerFor (s : Setting) (l : Ledger) (goal : Fact) : Ledger :=
  if s.isBuiltin goal then l.count fun c => { c with builtinCalls := c.builtinCalls + 1 }
  else
    match cachedTuple? l goal with
    | some _ => l.count fun c => { c with memoHits := c.memoHits + 1 }
    | none =>
      let candidates := s.program.candidates goal.key
      { l with nextVar := (renameClauses l.nextVar candidates).2 }.count fun c =>
        { c with
          clauseScans := c.clauseScans + 1
          clausesTested := c.clausesTested + candidates.length }

theorem isEnabled_of_unmemoized {l : Ledger} (unmemoized : l.memo.enabled = []) :
    l.memo.isEnabled = fun _ => false := by
  funext key
  simp [Memo.isEnabled, unmemoized]

/-- Without memo no goal is answered by a recorded tuple. -/
theorem cachedTuple?_of_unmemoized {l : Ledger} (unmemoized : l.memo.enabled = []) (goal : Fact) :
    cachedTuple? l goal = none := by
  rw [cachedTuple?, isEnabled_of_unmemoized unmemoized]
  rfl

def Choice.position : Choice → Nat
  | .builtin position | .clauses position => position

variable {s : Setting} {l l' : Ledger} {solution : Solution} {position : Nat} {goal : Fact}

private theorem expandBuiltin_eq (solution : Solution) (position : Nat)
    (builtin : s.isBuiltin goal = true) :
    ∃ start, (ledgerFor s l goal).Agrees start ∧
      expandBuiltin s l solution position goal =
        start.enterAll (attempts s l.memo.isEnabled solution position goal (clausesFor s l goal)) := by
  rw [ledgerFor, if_pos builtin, clausesFor, if_pos builtin, value?, expandBuiltin, inputsOf]
  simp only
  split
  · rename_i hnone
    rw [hnone]
    refine ⟨_, ?_, rfl⟩
    exact ⟨rfl, rfl, rfl⟩
  · rename_i output hsome
    rw [hsome]
    refine ⟨_, ?_, rfl⟩
    exact ⟨rfl, rfl, rfl⟩

private theorem expandGoal_eq (solution : Solution) (position : Nat)
    (user : s.isBuiltin goal = false) :
    ∃ start, (ledgerFor s l goal).Agrees start ∧
      expandGoal s l solution position goal =
        start.enterAll (attempts s l.memo.isEnabled solution position goal (clausesFor s l goal)) := by
  rw [ledgerFor, if_neg (by simp [user]), clausesFor, if_neg (by simp [user]), expandGoal]
  cases cachedTuple? l goal with
  | some values =>
    refine ⟨_, ?_, rfl⟩
    exact ⟨rfl, rfl, rfl⟩
  | none => exact ⟨trialLedger s l solution goal, ⟨rfl, rfl, rfl⟩, expandClauses_eq s l _ _ _⟩

/-- An expansion does nothing if no goal is chosen; otherwise it tries the chosen goal with its
clauses. -/
theorem expand_eq (s : Setting) (l : Ledger) (solution : Solution) :
    (choose s solution = none ∧ expand s l solution = ([], l)) ∨
      ∃ choice g start, choose s solution = some choice ∧
        solution[choice.position]? = some g ∧ g.resolved = false ∧
        (s.isBuiltin g.fact = true → isEvaluable g.fact = true) ∧
        (ledgerFor s l g.fact).Agrees start ∧
        expand s l solution = start.enterAll
          (attempts s l.memo.isEnabled solution choice.position g.fact (clausesFor s l g.fact)) := by
  rw [expand]
  cases hchoice : choose s solution with
  | none => exact .inl ⟨rfl, rfl⟩
  | some choice =>
    right
    cases choice with
    | builtin position =>
      obtain ⟨g, hg, hopen, hready, hbuiltin⟩ := choose_builtin hchoice
      obtain ⟨start, hstart, hexpand⟩ :=
        expandBuiltin_eq (l := l) solution position hbuiltin
      simp only [hg]
      exact ⟨_, g, start, rfl, hg, hopen, fun _ => hready, hstart, hexpand⟩
    | clauses position =>
      obtain ⟨g, hg, hopen, huser⟩ := choose_clauses hchoice
      obtain ⟨start, hstart, hexpand⟩ :=
        expandGoal_eq (l := l) solution position huser
      simp only [hg]
      exact ⟨_, g, start, rfl, hg, hopen, by simp [huser], hstart, hexpand⟩

/-- Two expansions that choose goals at the same place, or both none, side by side. -/
theorem expand_pair {s s' : Setting} (l l' : Ledger) {a a' : Solution}
    (same : choose s a = choose s' a') :
    (expand s l a = ([], l) ∧ expand s' l' a' = ([], l')) ∨
      ∃ position g g' start start', a[position]? = some g ∧ a'[position]? = some g' ∧
        (s.isBuiltin g.fact = true → isEvaluable g.fact = true) ∧
        (ledgerFor s l g.fact).Agrees start ∧ (ledgerFor s' l' g'.fact).Agrees start' ∧
        expand s l a = start.enterAll
          (attempts s l.memo.isEnabled a position g.fact (clausesFor s l g.fact)) ∧
        expand s' l' a' = start'.enterAll
          (attempts s' l'.memo.isEnabled a' position g'.fact (clausesFor s' l' g'.fact)) := by
  rcases expand_eq s l a with ⟨hnone, hleft⟩ | ⟨choice, g, start, hchoice, hg, -, hready, hstart, hleft⟩
  · rcases expand_eq s' l' a' with ⟨-, hright⟩ | ⟨choice, g, start, hchoice, -⟩
    · exact .inl ⟨hleft, hright⟩
    · rw [← same, hnone] at hchoice
      cases hchoice
  · rcases expand_eq s' l' a' with
      ⟨hnone, -⟩ | ⟨choice', g', start', hchoice', hg', -, -, hstart', hright⟩
    · rw [← same, hchoice] at hnone
      cases hnone
    · rw [← same, hchoice] at hchoice'
      obtain rfl : choice = choice' := Option.some.inj hchoice'
      exact .inr ⟨choice.position, g, g', start, start', hg, hg', hready, hstart, hstart', hleft,
        hright⟩

/-- The children of a solution, given its chosen goal. -/
theorem expand_fst {choice : Choice} {g : Goal} (chosen : choose s solution = some choice)
    (goal : solution[choice.position]? = some g) :
    (expand s l solution).1 = (clausesFor s l g.fact).filterMap fun c =>
      (attempt s l.memo.isEnabled solution choice.position g.fact c.1 c.2).child? := by
  rcases expand_eq s l solution with ⟨hnone, -⟩ | ⟨choice', g', start, hchoice, hg, -, -, -, hexpand⟩
  · rw [chosen] at hnone
    cases hnone
  · obtain rfl : choice = choice' := Option.some.inj (chosen.symm.trans hchoice)
    obtain rfl : g = g' := Option.some.inj (goal.symm.trans hg)
    rw [hexpand]
    exact List.filterMap_map

/-- The attempts of an expansion, in order. -/
def tried (s : Setting) (l : Ledger) (solution : Solution) : List Attempt :=
  match choose s solution with
  | none => []
  | some choice =>
    match solution[choice.position]? with
    | none => []
    | some g => attempts s l.memo.isEnabled solution choice.position g.fact (clausesFor s l g.fact)

/-- A built-in is chosen with its inputs. -/
theorem isEvaluable_of_choose {choice : Choice} {g : Goal} (chosen : choose s solution = some choice)
    (goal : solution[choice.position]? = some g) (builtin : s.isBuiltin g.fact = true) :
    isEvaluable g.fact = true := by
  cases choice with
  | builtin position =>
    obtain ⟨_, hg, -, hready, -⟩ := choose_builtin chosen
    rw [← Option.some.inj (hg.symm.trans goal)]
    exact hready
  | clauses position =>
    obtain ⟨_, hg, -, huser⟩ := choose_clauses chosen
    rw [Option.some.inj (hg.symm.trans goal), builtin] at huser
    cases huser

theorem mem_tried {a : Attempt} : a ∈ tried s l solution ↔
    ∃ choice g c, choose s solution = some choice ∧ solution[choice.position]? = some g ∧
      c ∈ clausesFor s l g.fact ∧
      a = attempt s l.memo.isEnabled solution choice.position g.fact c.1 c.2 := by
  rw [tried]
  cases hchoice : choose s solution with
  | none => simp
  | some choice =>
    cases hgoal : solution[choice.position]? with
    | none => simp +contextual [hgoal]
    | some g => simp [attempts, hgoal, eq_comm]

/-- Nothing that is noted of an undefined predicate is lost before the first attempt. -/
private theorem undefined_ledgerFor (s : Setting) (l : Ledger) (goal : Fact) :
    (ledgerFor s l goal).stats.undefined = l.stats.undefined := by
  rw [ledgerFor]
  split
  · rfl
  · split <;> rfl

/-- An expansion enters its attempts. -/
theorem expand_eq_enterAll (s : Setting) (l : Ledger) (solution : Solution) :
    ∃ start : Ledger, start.stats.undefined = l.stats.undefined ∧
      expand s l solution = start.enterAll (tried s l solution) := by
  rcases expand_eq s l solution with
    ⟨hnone, hexpand⟩ | ⟨choice, g, start, hchoice, hg, -, -, hstart, hexpand⟩
  · exact ⟨l, rfl, by rw [hexpand, tried, hnone]; rfl⟩
  · refine ⟨start, ?_, ?_⟩
    · rw [← hstart.stats, undefined_ledgerFor]
    · rw [hexpand, tried, hchoice]
      simp only [hg]

/-- The children of an expansion are those of its attempts. -/
theorem mem_expand {child : Solution} :
    child ∈ (expand s l solution).1 ↔ ∃ a ∈ tried s l solution, a.child? = some child := by
  obtain ⟨start, -, hexpand⟩ := expand_eq_enterAll s l solution
  rw [hexpand]
  exact List.mem_filterMap

private theorem mem_undefined_enterAll {as : List Attempt} {key : String} :
    key ∈ (l.enterAll as).2.stats.undefined ↔
      key ∈ l.stats.undefined ∨ Attempt.undefined key ∈ as := by
  change key ∈ (as.foldl Ledger.enter l).stats.undefined ↔ _
  induction as generalizing l with
  | nil => simp
  | cons a rest ih =>
    rw [List.foldl_cons, ih, List.mem_cons, ← or_assoc]
    refine or_congr_left ?_
    cases a with
    | rejected => simp [Ledger.enter]
    | discharged proven child => simp [Ledger.enter, Ledger.spend]
    | undefined other =>
      change key ∈ (l.stats.report other).undefined ↔ _
      rw [Attempt.undefined.injEq, Stats.report]
      split
      · constructor
        · exact .inl
        · rintro (hold | rfl)
          · exact hold
          · assumption
      · exact List.mem_append.trans (or_congr_right List.mem_singleton)

/-- An expansion notes the undefined predicates that its attempts report. -/
theorem mem_undefined_expand {key : String} :
    key ∈ (expand s l solution).2.stats.undefined ↔
      key ∈ l.stats.undefined ∨ Attempt.undefined key ∈ tried s l solution := by
  obtain ⟨start, hstart, hexpand⟩ := expand_eq_enterAll s l solution
  rw [hexpand, mem_undefined_enterAll, hstart]

theorem cachedTuple?_eq (h : l.Agrees l') (goal : Fact) : cachedTuple? l goal = cachedTuple? l' goal := by
  rw [cachedTuple?, cachedTuple?, h.memo]

theorem ledgerFor_agrees (h : l.Agrees l') (goal : Fact) :
    (ledgerFor s l goal).Agrees (ledgerFor s l' goal) := by
  rw [ledgerFor, ledgerFor, cachedTuple?_eq h]
  split
  · exact h.count _
  · split
    · exact h.count _
    · refine ⟨h.memo, ?_, ?_⟩
      · simp [Ledger.count, h.nextVar]
      · simp [Ledger.count, h.stats]

/-- What a goal is tried with does not depend on the ambient, but for the value of a built-in. -/
theorem clausesFor_eq (h : l.Agrees l')
    (value : s.isBuiltin goal = true → value? s l goal = value? s l' goal) :
    clausesFor s l goal = clausesFor s l' goal := by
  rw [clausesFor, clausesFor, cachedTuple?_eq h, renamedClauses, renamedClauses, h.nextVar]
  cases hbuiltin : s.isBuiltin goal with
  | true => rw [value hbuiltin]
  | false => rfl

/-! ### Deterministic built-ins -/

/-- If a predicate is a built-in, it comes to one value for the same inputs. -/
def IsDeterministic (r : Builtin.Registry) (functor : String) (arity : Nat) : Prop :=
  r.contains functor arity = true → ∀ us ambient ambient', us.length = arity - 1 →
    (r.evaluate functor us ambient).1 = (r.evaluate functor us ambient').1

/-- The built-ins among the goals of a solution are deterministic. -/
def Calm (s : Setting) (solution : Solution) : Prop :=
  ∀ g ∈ solution, IsDeterministic s.registry g.fact.functor g.fact.arity

/-- The built-ins that the clauses of a program call are deterministic. -/
def CallsCalm (s : Setting) : Prop :=
  ∀ key, ∀ c ∈ s.program.candidates key, ∀ f ∈ c.body, IsDeterministic s.registry f.functor f.arity

/-- With deterministic built-ins an expansion makes the same in every ambient. -/
theorem expand_agrees (calm : Calm s solution) (h : l.Agrees l') :
    (expand s l solution).1 = (expand s l' solution).1 ∧
      (expand s l solution).2.Agrees (expand s l' solution).2 := by
  rcases expand_pair l l' (rfl : choose s solution = choose s solution) with
    ⟨hleft, hright⟩ | ⟨position, g, g', start, start', hg, hg', hready, hstart, hstart', hleft, hright⟩
  · rw [hleft, hright]
    exact ⟨rfl, h⟩
  · obtain rfl : g = g' := Option.some.inj (hg.symm.trans hg')
    have hclauses : clausesFor s l g.fact = clausesFor s l' g.fact :=
      clausesFor_eq h fun hbuiltin => calm g (List.mem_of_getElem? hg) hbuiltin _ _ _
        (length_inputsOf (hready hbuiltin))
    have hagrees : start.Agrees start' := hstart.symm.trans ((ledgerFor_agrees h g.fact).trans hstart')
    rw [hleft, hright, hclauses, h.memo]
    exact ⟨rfl, hagrees.enterAll _⟩

end Horn.Search
