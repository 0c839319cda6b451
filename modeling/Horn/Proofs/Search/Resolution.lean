import Horn.Search.Expansion

/-!
What one expansion can do.

An expansion discharges one open goal by clauses: by the value of a built-in, by a recorded tuple, or
by clauses of the program with their variables renamed. `Resolvent` lists these, `expand_cases` says
that every expansion is a series of such attempts, and `attempt_eq_discharged` says what an attempt
that succeeds has checked and made. Everything later is derived from these statements.
-/

set_option autoImplicit false
set_option relaxedAutoImplicit false

namespace Horn.Search

open Builtin (Registry Ambient)

/-- The inputs of a built-in goal. -/
def inputsOf (goal : Fact) : List Literal :=
  goal.args.dropLast.filterMap Atom.literal?

/-- Evaluable arguments are literals, and one more. -/
theorem haveInputs_append {args : List Atom} (h : haveInputs args = true)
    (hne : args ≠ []) : ∃ inputs last,
      args = inputs.map Atom.lit ++ [last] ∧ args.dropLast.filterMap Atom.literal? = inputs := by
  induction args with
  | nil => exact absurd rfl hne
  | cons arg rest ih =>
    cases rest with
    | nil => exact ⟨[], arg, rfl, rfl⟩
    | cons next rest =>
      rw [haveInputs, Bool.and_eq_true] at h
      · obtain ⟨inputs, last, hargs, hinputs⟩ := ih h.2 (by simp)
        cases arg with
        | var v => simp [Atom.isConstant] at h
        | lit u =>
          refine ⟨u :: inputs, last, ?_, ?_⟩
          · rw [hargs, List.map_cons, List.cons_append]
          · rw [List.dropLast_cons_of_ne_nil (by simp), List.filterMap_cons, hinputs]
            rfl
      · simp

/-- A built-in that can be evaluated has all of its inputs. -/
theorem length_inputsOf {goal : Fact} (ready : isEvaluable goal = true) :
    (inputsOf goal).length = goal.arity - 1 := by
  rw [inputsOf, Fact.arity]
  by_cases hne : goal.args = []
  · simp [hne]
  · obtain ⟨inputs, last, hargs, hinputs⟩ := haveInputs_append ready hne
    rw [hinputs, hargs]
    simp

/-- The clauses, given by head and body, with which an expansion may discharge a goal; `next` is the
first number that is free afterwards. -/
inductive Resolvent (s : Setting) (l : Ledger) (next : Nat) (goal : Fact) : Fact → List Fact → Prop
  | value {output : Literal} (ambient : Ambient) (builtin : s.isBuiltin goal = true)
      (ready : isEvaluable goal = true)
      (evaluated : (s.registry.evaluate goal.functor (inputsOf goal) ambient).1 = some output) :
      Resolvent s l next goal (Fact.ofLiterals goal.functor (inputsOf goal ++ [output])) []
  | recorded {values : List Literal} (user : s.isBuiltin goal = false)
      (found : cachedTuple? l goal = some values) :
      Resolvent s l next goal (Fact.ofLiterals goal.functor values) []
  | renamed {c : Clause} {start : Nat} (user : s.isBuiltin goal = false)
      (candidate : c ∈ s.program.candidates goal.key) (fresh : l.nextVar ≤ start)
      (free : (c.renameApart start).2 ≤ next) :
      Resolvent s l next goal (c.renameApart start).1.head (c.renameApart start).1.body

/-- The attempts to discharge a goal by clauses, in order. -/
def attempts (s : Setting) (memoized : String → Bool) (solution : Solution) (position : Nat)
    (goal : Fact) (clauses : List (Fact × List Fact)) : List Attempt :=
  clauses.map fun c => attempt s memoized solution position goal c.1 c.2

theorem le_renameClauses (next : Nat) (cs : List Clause) : next ≤ (renameClauses next cs).2 := by
  induction cs generalizing next with
  | nil => exact Nat.le_refl _
  | cons c rest ih => exact Nat.le_trans (Nat.le_add_right _ _) (ih _)

/-- The renamed clauses have numbers from the first free one before to the first free one after. -/
theorem mem_renameClauses {cs : List Clause} {next : Nat} {d : Clause}
    (h : d ∈ (renameClauses next cs).1) : ∃ c ∈ cs, ∃ start, next ≤ start ∧
      (c.renameApart start).2 ≤ (renameClauses next cs).2 ∧ d = (c.renameApart start).1 := by
  induction cs generalizing next with
  | nil => simp [renameClauses] at h
  | cons c rest ih =>
    rw [renameClauses] at h
    rcases List.mem_cons.1 h with rfl | hrest
    · exact ⟨c, List.mem_cons_self, next, Nat.le_refl _, le_renameClauses _ rest, rfl⟩
    · obtain ⟨c', hc', start, hstart, hfree, rfl⟩ := ih hrest
      have hle : next ≤ (c.renameApart next).2 := Nat.le_add_right _ _
      exact ⟨c', List.mem_cons_of_mem c hc', start, Nat.le_trans hle hstart, hfree, rfl⟩

@[simp] theorem length_renameClauses (next : Nat) (cs : List Clause) :
    (renameClauses next cs).1.length = cs.length := by
  induction cs generalizing next with
  | nil => rfl
  | cons c rest ih => exact congrArg (· + 1) (ih _)

/-- Every clause is among the renamed ones. -/
theorem exists_mem_renameClauses {cs : List Clause} {c : Clause} (h : c ∈ cs) (next : Nat) :
    ∃ start, next ≤ start ∧ (c.renameApart start).1 ∈ (renameClauses next cs).1 := by
  induction cs generalizing next with
  | nil => exact absurd h List.not_mem_nil
  | cons first rest ih =>
    rcases List.mem_cons.1 h with rfl | h
    · exact ⟨next, Nat.le_refl _, List.mem_cons_self⟩
    · obtain ⟨start, hstart, hmem⟩ := ih h (first.renameApart next).2
      exact ⟨start, Nat.le_trans (Nat.le_add_right _ _) hstart, List.mem_cons_of_mem _ hmem⟩

theorem choose_builtin {s : Setting} {solution : Solution} {position : Nat}
    (h : choose s solution = some (.builtin position)) :
    ∃ g, solution[position]? = some g ∧ g.resolved = false ∧ isEvaluable g.fact = true ∧
      s.isBuiltin g.fact = true := by
  simp only [choose] at h
  split at h
  · rename_i found hfound
    obtain rfl : found = position := by simpa using h
    obtain ⟨hlt, hready, -⟩ := List.findIdx?_eq_some_iff_getElem.1 hfound
    refine ⟨solution[found], List.getElem?_eq_getElem hlt, ?_⟩
    simpa [and_assoc] using hready
  · simp at h

theorem choose_clauses {s : Setting} {solution : Solution} {position : Nat}
    (h : choose s solution = some (.clauses position)) :
    ∃ g, solution[position]? = some g ∧ g.resolved = false ∧ s.isBuiltin g.fact = false := by
  simp only [choose] at h
  split at h
  · simp at h
  · obtain ⟨found, hfound, hchoice⟩ := Option.map_eq_some_iff.1 h
    obtain rfl : found = position := by simpa using hchoice
    obtain ⟨hlt, hclausal, -⟩ := List.findIdx?_eq_some_iff_getElem.1 hfound
    refine ⟨solution[found], List.getElem?_eq_getElem hlt, ?_⟩
    simpa using hclausal

/-- The ledger with which the clauses of a goal are tried. -/
def trialLedger (s : Setting) (l : Ledger) (solution : Solution) (goal : Fact) : Ledger :=
  let candidates := s.program.candidates goal.key
  let l := { l with nextVar := (renameClauses l.nextVar candidates).2 }.count fun c =>
    { c with
      clauseScans := c.clauseScans + 1
      clausesTested := c.clausesTested + candidates.length }
  l.spend (trialEffort solution goal candidates)

/-- The clauses of a goal, given by head and body, with their variables renamed. -/
def renamedClauses (s : Setting) (l : Ledger) (goal : Fact) : List (Fact × List Fact) :=
  (renameClauses l.nextVar (s.program.candidates goal.key)).1.map fun c => (c.head, c.body)

theorem expandClauses_eq (s : Setting) (l : Ledger) (solution : Solution) (position : Nat)
    (goal : Fact) :
    expandClauses s l solution position goal =
      (trialLedger s l solution goal).enterAll
        (attempts s l.memo.isEnabled solution position goal (renamedClauses s l goal)) := by
  rw [attempts, renamedClauses, List.map_map]
  rfl

/-- An expansion does nothing, or it discharges one open goal by resolvents, one after the other;
the memo changes only by what the attempts prove. -/
theorem expand_cases (s : Setting) (l : Ledger) (solution : Solution) :
    expand s l solution = ([], l) ∨
      ∃ position g clauses, ∃ l' : Ledger,
        solution[position]? = some g ∧ g.resolved = false ∧
        (∀ c ∈ clauses, Resolvent s l l'.nextVar g.fact c.1 c.2) ∧
        expand s l solution =
          l'.enterAll (attempts s l.memo.isEnabled solution position g.fact clauses) ∧
        l'.memo = l.memo ∧ l.nextVar ≤ l'.nextVar := by
  rw [expand]
  split
  · exact .inl rfl
  · rename_i position hchoice
    obtain ⟨g, hg, hopen, hready, hbuiltin⟩ := choose_builtin hchoice
    simp only [hg]
    rw [expandBuiltin]
    simp only
    split
    · rename_i hnone
      exact .inr ⟨position, g, [], _, hg, hopen, by simp, rfl, rfl, Nat.le_refl _⟩
    · rename_i output hsome
      refine .inr ⟨position, g, [(Fact.ofLiterals g.fact.functor (inputsOf g.fact ++ [output]), [])],
        _, hg, hopen, ?_, rfl, rfl, Nat.le_refl _⟩
      intro c hc
      obtain rfl := List.mem_singleton.1 hc
      exact .value _ hbuiltin hready hsome
  · rename_i position hchoice
    obtain ⟨g, hg, hopen, huser⟩ := choose_clauses hchoice
    simp only [hg]
    rw [expandGoal]
    split
    · rename_i values hvalues
      refine .inr ⟨position, g, [(Fact.ofLiterals g.fact.functor values, [])], _, hg, hopen, ?_, rfl,
        rfl, Nat.le_refl _⟩
      intro c hc
      obtain rfl := List.mem_singleton.1 hc
      exact .recorded huser hvalues
    · refine .inr ⟨position, g, renamedClauses s l g.fact, trialLedger s l solution g.fact, hg, hopen,
        ?_, expandClauses_eq s l solution position g.fact, rfl, le_renameClauses _ _⟩
      intro c hc
      obtain ⟨d, hd, rfl⟩ := List.mem_map.1 hc
      obtain ⟨c, hcandidate, start, hstart, hfree, rfl⟩ := mem_renameClauses hd
      exact .renamed huser hcandidate hstart hfree

/-- What is entered does not use up numbers. -/
@[simp] theorem nextVar_enterAll (l : Ledger) (as : List Attempt) :
    (l.enterAll as).2.nextVar = l.nextVar := by
  change (as.foldl Ledger.enter l).nextVar = l.nextVar
  induction as generalizing l with
  | nil => rfl
  | cons a rest ih =>
    rw [List.foldl_cons, ih]
    cases a <;> rfl

/-- What is entered does not change which predicates are memoized. -/
theorem enabled_enterAll (l : Ledger) (as : List Attempt) :
    (l.enterAll as).2.memo.enabled = l.memo.enabled := by
  have hrecord (facts : List Fact) (memo : Memo) :
      (facts.foldl Ledger.recordFact memo).enabled = memo.enabled := by
    induction facts generalizing memo with
    | nil => rfl
    | cons f rest ih =>
      rw [List.foldl_cons, ih, Ledger.recordFact]
      split <;> rfl
  change (as.foldl Ledger.enter l).memo.enabled = l.memo.enabled
  induction as generalizing l with
  | nil => rfl
  | cons a rest ih =>
    rw [List.foldl_cons, ih]
    cases a with
    | rejected => rfl
    | undefined key => rfl
    | discharged proven child => exact hrecord proven l.memo

theorem enabled_expand (s : Setting) (l : Ledger) (solution : Solution) :
    (expand s l solution).2.memo.enabled = l.memo.enabled := by
  rcases expand_cases s l solution with hnone | ⟨position, g, clauses, l', -, -, -, hexpand, hmemo, -⟩
  · rw [hnone]
  · rw [hexpand, enabled_enterAll, hmemo]

/-- A goal is discharged if the conditions are respected and the predicates of the body defined. -/
theorem derive_eq_discharged {s : Setting} {memoized : String → Bool} {solution : Solution}
    {position : Nat} {b : Bindings} {body : List Fact} (respected : body.all b.respects = true)
    (defined : ∀ f ∈ body, s.isDefined (b.substitute f) = true)
    (goals : ∀ g ∈ solution, b.respects g.fact = true) :
    derive s memoized solution position b body =
      let (child, proven) := compact memoized (discharge b (body.map b.substitute) position solution)
      .discharged proven (if hasPending child || isAnswer child then some child else none) := by
  have hnone : (body.map b.substitute).find? (fun f => !s.isDefined f) = none := by
    rw [List.find?_eq_none]
    intro f hf
    obtain ⟨f', hf', rfl⟩ := List.mem_map.1 hf
    simp [defined f' hf']
  have hall : (solution.all fun g => b.respects g.fact) = true := List.all_eq_true.2 goals
  rw [derive, if_pos respected]
  simp only [hnone, hall, if_true]

/-- What an attempt that discharges its goal has checked and made. -/
theorem attempt_eq_discharged {s : Setting} {memoized : String → Bool} {solution : Solution}
    {position : Nat} {goal head : Fact} {body proven : List Fact} {child : Option Solution}
    (h : attempt s memoized solution position goal head body = .discharged proven child) :
    ∃ b, unify head goal = some b ∧ body.all b.respects = true ∧
      (∀ f ∈ body, s.isDefined (b.substitute f) = true) ∧
      (∀ g ∈ solution, b.respects g.fact = true) ∧
      proven = (compact memoized (discharge b (body.map b.substitute) position solution)).2 ∧
      ∀ new, child = some new →
        new = (compact memoized (discharge b (body.map b.substitute) position solution)).1 ∧
          (hasPending new = true ∨ isAnswer new = true) := by
  rw [attempt] at h
  split at h
  · simp at h
  · rename_i b hb
    refine ⟨b, hb, ?_⟩
    rw [derive] at h
    split at h
    · rename_i hbody
      simp only at h
      split at h
      · simp at h
      · rename_i hdefined
        split at h
        · rename_i hgoals
          simp only [Attempt.discharged.injEq] at h
          obtain ⟨rfl, rfl⟩ := h
          refine ⟨hbody, ?_, ?_, rfl, ?_⟩
          · intro f hf
            have := List.find?_eq_none.1 hdefined _ (List.mem_map_of_mem hf)
            simpa using this
          · intro g hg
            exact List.all_eq_true.1 hgoals g hg
          · intro new hnew
            simp only [Option.ite_none_right_eq_some, Option.some.injEq, Bool.or_eq_true] at hnew
            obtain ⟨hkept, rfl⟩ := hnew
            exact ⟨rfl, hkept⟩
        · simp at h
    · simp at h

end Horn.Search
