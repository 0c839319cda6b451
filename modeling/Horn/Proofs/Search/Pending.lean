import Horn.Proofs.Search.Support
import Horn.Proofs.Unification.Names

/-!
The open goals of a partial solution.

A solution in which no open goal is a built-in is expanded at its first open goal: `choose_clauses_eq`
says so, and `pending_discharge` says what is open afterwards. Compaction drops discharged goals
only, so it keeps the first goal and the open ones.
-/

set_option autoImplicit false
set_option relaxedAutoImplicit false

namespace Horn.Search

/-- The open goals of a solution, in order. -/
def pending (solution : Solution) : Solution :=
  solution.filter fun g => !g.resolved

theorem mem_pending {g : Goal} {solution : Solution} :
    g ∈ pending solution ↔ g ∈ solution ∧ g.resolved = false := by
  simp [pending]

theorem hasPending_iff {solution : Solution} :
    hasPending solution = true ↔ pending solution ≠ [] := by
  simp [hasPending, pending, List.filter_eq_nil_iff]

/-- The first open goal of a solution, with the goals before it and behind it. -/
theorem exists_first_pending {solution : Solution} (h : hasPending solution = true) :
    ∃ before g behind, solution = before ++ g :: behind ∧
      (∀ d ∈ before, d.resolved = true) ∧ g.resolved = false := by
  induction solution with
  | nil => simp [hasPending] at h
  | cons first rest ih =>
    cases hfirst : first.resolved with
    | false => exact ⟨[], first, rest, rfl, by simp, hfirst⟩
    | true =>
      have hrest : hasPending rest = true := by simpa [hasPending, hfirst] using h
      obtain ⟨before, g, behind, rfl, hbefore, hg⟩ := ih hrest
      exact ⟨first :: before, g, behind, rfl, by simpa [hfirst] using hbefore, hg⟩

/-- An element at a position, such as a goal, with what stands before it and behind it. -/
theorem exists_append_of_getElem? {α : Type} {items : List α} {position : Nat} {a : α}
    (h : items[position]? = some a) :
    ∃ before behind, items = before ++ a :: behind ∧ before.length = position := by
  obtain ⟨hlt, rfl⟩ := List.getElem?_eq_some_iff.1 h
  refine ⟨items.take position, items.drop (position + 1), ?_, ?_⟩
  · rw [List.getElem_cons_drop, List.take_append_drop]
  · rw [List.length_take]
    omega

/-- If no open goal is a built-in, the first open goal is expanded by clauses. -/
theorem choose_clauses_eq {s : Setting} {before behind : Solution} {g : Goal}
    (resolved : ∀ d ∈ before, d.resolved = true) (opened : g.resolved = false)
    (user : ∀ d ∈ pending (before ++ g :: behind), s.isBuiltin d.fact = false) :
    choose s (before ++ g :: behind) = some (.clauses before.length) := by
  have hready : (before ++ g :: behind).findIdx?
      (fun d => !d.resolved && isEvaluable d.fact && s.isBuiltin d.fact) = none := by
    rw [List.findIdx?_eq_none_iff]
    intro d hd
    cases hres : d.resolved with
    | true => simp
    | false => simp [user d (mem_pending.2 ⟨hd, hres⟩)]
  have hg : g ∈ pending (before ++ g :: behind) := mem_pending.2 ⟨by simp, opened⟩
  have hfirst : (before ++ g :: behind).findIdx? (fun d => !d.resolved && !s.isBuiltin d.fact) =
      some before.length := by
    rw [List.findIdx?_append, List.findIdx?_eq_none_iff.2 (by simpa using fun d hd => by simp [resolved d hd])]
    simp [List.findIdx?_cons, opened, user g hg]
  rw [choose]
  simp only [hready, hfirst, Option.map_some]

/-! ### Discharging -/

theorem discharge_append {b : Bindings} {body : List Fact} {before behind : Solution} {g : Goal} :
    discharge b body before.length (before ++ g :: behind) =
      before.map (Goal.substitute b) ++ { g.substitute b with resolved := true } ::
        (body.map (Goal.pending (g.depth + 1)) ++ behind.map (Goal.substitute b)) := by
  induction before with
  | nil =>
    rw [List.length_nil, List.nil_append, discharge, substituteAll_eq]
    rfl
  | cons first before ih =>
    rw [List.length_cons, List.cons_append, discharge, ih]
    rfl

theorem pending_append (goals others : Solution) :
    pending (goals ++ others) = pending goals ++ pending others :=
  List.filter_append ..

theorem pending_append_cons (before behind : Solution) {g : Goal} (opened : g.resolved = false) :
    pending (before ++ g :: behind) = pending before ++ g :: pending behind := by
  rw [pending_append, pending, pending, pending, List.filter_cons_of_pos (by simp [opened])]

theorem pending_eq_nil {goals : Solution} (h : ∀ g ∈ goals, g.resolved = true) :
    pending goals = [] := by
  simpa [pending, List.filter_eq_nil_iff] using h

theorem pending_map_substitute (b : Bindings) (goals : Solution) :
    pending (goals.map (Goal.substitute b)) = (pending goals).map (Goal.substitute b) := by
  simp [pending, List.filter_map, Function.comp_def]

theorem pending_map_pending (depth : Nat) (body : List Fact) :
    pending (body.map (Goal.pending depth)) = body.map (Goal.pending depth) := by
  simp [pending, List.filter_eq_self, Goal.pending]

/-- What is open once a goal is discharged: what was open besides, and the goals of the body. -/
theorem pending_discharge {b : Bindings} {body : List Fact} {before behind : Solution} {g : Goal} :
    pending (discharge b body before.length (before ++ g :: behind)) =
      (pending before).map (Goal.substitute b) ++
        (body.map (Goal.pending (g.depth + 1)) ++ (pending behind).map (Goal.substitute b)) := by
  rw [discharge_append, pending_append, pending_map_substitute, ← pending_map_substitute b behind,
    ← pending_map_pending (g.depth + 1) body, ← pending_append, pending_map_pending]
  simp [pending]

/-- Every goal afterwards is one from before, substituted, or comes from the body. -/
theorem mem_discharge {b : Bindings} {body : List Fact} {position : Nat} {solution : Solution}
    {d : Goal} (h : d ∈ discharge b body position solution) :
    (∃ g ∈ solution, d.fact = b.substitute g.fact) ∨ d.fact ∈ body := by
  induction solution generalizing position with
  | nil => simp [discharge] at h
  | cons first behind ih =>
    cases position with
    | zero =>
      rw [discharge, substituteAll_eq, List.mem_cons, List.mem_append, List.mem_map, List.mem_map] at h
      rcases h with rfl | ⟨f, hf, rfl⟩ | ⟨g, hg, rfl⟩
      · exact .inl ⟨first, List.mem_cons_self, by simp⟩
      · exact .inr hf
      · exact .inl ⟨g, List.mem_cons_of_mem _ hg, by simp⟩
    | succ position =>
      rw [discharge, List.mem_cons] at h
      rcases h with rfl | h
      · exact .inl ⟨first, List.mem_cons_self, by simp⟩
      · refine (ih h).imp_left fun hold => ?_
        obtain ⟨g, hg, heq⟩ := hold
        exact ⟨g, List.mem_cons_of_mem _ hg, heq⟩

/-- The query is substituted like the other goals. -/
theorem head?_discharge (b : Bindings) (body : List Fact) (position : Nat) (solution : Solution) :
    (discharge b body position solution).head?.map Goal.fact =
      solution.head?.map fun query => b.substitute query.fact := by
  cases solution with
  | nil => cases position <;> rfl
  | cons first behind => cases position <;> simp [discharge]

/-! ### Compaction -/

private theorem pending_dropDischarged (memoized : String → Bool) (goals : Solution) :
    pending (dropDischarged memoized goals) = pending goals := by
  induction goals with
  | nil => rfl
  | cons g behind ih =>
    rw [dropDischarged]
    cases hg : g.resolved with
    | false =>
      simp only [Bool.not_false, Bool.true_or, if_true]
      simpa [pending, hg] using ih
    | true =>
      split
      · simpa [pending, hg] using ih
      · simpa [pending, hg] using ih

/-- Compaction keeps the first goal and what is open, and adds nothing. -/
theorem compact_fst (memoized : String → Bool) (solution : Solution) :
    (compact memoized solution).1.head? = solution.head? ∧
      (compact memoized solution).1.Sublist solution ∧
        pending (compact memoized solution).1 = pending solution := by
  cases solution with
  | nil => exact ⟨rfl, List.Sublist.refl _, rfl⟩
  | cons query goals =>
    rw [compact_cons]
    refine ⟨rfl, (dropDischarged_sublist memoized goals).cons_cons query, ?_⟩
    have := pending_dropDischarged memoized goals
    simp only [pending] at this ⊢
    rw [List.filter_cons, List.filter_cons, this]

/-- The query of what becomes of a solution is its query, substituted. -/
theorem exists_query_of_compact {memoized : String → Bool} {b : Bindings} {body : List Fact}
    {position : Nat} {solution : Solution} {query : Goal}
    (h : query ∈ (compact memoized (discharge b body position solution)).1.head?) :
    ∃ old ∈ solution.head?, query.fact = b.substitute old.fact := by
  rw [(compact_fst memoized _).1] at h
  have hfact := congrArg (query.fact ∈ ·) (head?_discharge b body position solution)
  obtain ⟨old, hold, heq⟩ := Option.map_eq_some_iff.1 (hfact.mp (Option.mem_map_of_mem _ h))
  exact ⟨old, hold, heq.symm⟩

/-! ### Expanding -/

/-- A child of a solution is what an attempt with a resolvent for an open goal makes. -/
theorem exists_attempt_of_mem_expand {s : Setting} {l : Ledger} {solution child : Solution}
    (h : child ∈ (expand s l solution).1) :
    ∃ before g behind head body proven, solution = before ++ g :: behind ∧ g.resolved = false ∧
      Resolvent s l (expand s l solution).2.nextVar g.fact head body ∧
      attempt s l.memo.isEnabled solution before.length g.fact head body =
        .discharged proven (some child) := by
  rcases expand_cases s l solution with
    hnone | ⟨position, g, cs, l', hg, hopen, hcs, hexpand, -, -⟩
  · simp [hnone] at h
  obtain ⟨before, behind, rfl, rfl⟩ := exists_append_of_getElem? hg
  rw [hexpand] at h
  obtain ⟨a, ha, hchild⟩ := List.mem_filterMap.1 h
  obtain ⟨c, hc, rfl⟩ := List.mem_map.1 ha
  cases hattempt : attempt s l.memo.isEnabled (before ++ g :: behind) before.length g.fact c.1 c.2 with
  | rejected => simp [hattempt, Attempt.child?] at hchild
  | undefined key => simp [hattempt, Attempt.child?] at hchild
  | discharged proven new =>
    rw [hattempt] at hchild
    obtain rfl : new = some child := hchild
    refine ⟨before, g, behind, c.1, c.2, proven, rfl, hopen, ?_, hattempt⟩
    rw [hexpand, nextVar_enterAll]
    exact hcs c hc

/-- How a child of a solution comes about: an open goal is discharged by a resolvent. -/
theorem exists_of_mem_expand {s : Setting} {l : Ledger} {solution child : Solution}
    (h : child ∈ (expand s l solution).1) :
    ∃ before g behind head body b, solution = before ++ g :: behind ∧ g.resolved = false ∧
      Resolvent s l (expand s l solution).2.nextVar g.fact head body ∧
      unify head g.fact = some b ∧
      child = (compact l.memo.isEnabled
        (discharge b (body.map b.substitute) before.length (before ++ g :: behind))).1 := by
  obtain ⟨before, g, behind, head, body, proven, rfl, hopen, hresolvent, hattempt⟩ :=
    exists_attempt_of_mem_expand h
  obtain ⟨b, hb, -, -, -, -, hnew⟩ := attempt_eq_discharged hattempt
  exact ⟨before, g, behind, head, body, b, rfl, hopen, hresolvent, hb, (hnew child rfl).1⟩

/-- A child has an open goal, or its query is ground. -/
theorem kept_of_mem_expand {s : Setting} {l : Ledger} {solution child : Solution}
    (h : child ∈ (expand s l solution).1) : hasPending child = true ∨ isAnswer child = true := by
  obtain ⟨_, _, _, _, _, _, -, -, -, hattempt⟩ := exists_attempt_of_mem_expand h
  obtain ⟨_, -, -, -, -, -, hnew⟩ := attempt_eq_discharged hattempt
  exact (hnew child rfl).2

/-- What holds of the predicates of a solution and of those that clauses call holds of the predicates
of its children. -/
theorem predicates_of_mem_expand {s : Setting} {l : Ledger} {solution child : Solution}
    {P : String → Nat → Prop} (goals : ∀ g ∈ solution, P g.fact.functor g.fact.arity)
    (called : ∀ key, ∀ c ∈ s.program.candidates key, ∀ f ∈ c.body, P f.functor f.arity)
    (h : child ∈ (expand s l solution).1) : ∀ g ∈ child, P g.fact.functor g.fact.arity := by
  obtain ⟨before, g, behind, head, body, b, rfl, -, hresolvent, -, rfl⟩ := exists_of_mem_expand h
  have hbody : ∀ f ∈ body, P f.functor f.arity := by
    cases hresolvent with
    | value _ _ _ _ => simp
    | recorded _ _ => simp
    | renamed _ candidate _ _ =>
      intro f hf
      obtain ⟨f', hf', rfl⟩ := List.mem_map.1 hf
      simpa using called _ _ candidate f' hf'
  intro d hd
  rcases mem_discharge ((compact_fst _ _).2.1.subset hd) with ⟨old, hold, heq⟩ | hnew
  · rw [heq]
    simpa using goals old hold
  · obtain ⟨f, hf, heq⟩ := List.mem_map.1 hnew
    rw [← heq]
    simpa using hbody f hf

/-- An expansion does not take back numbers. -/
theorem nextVar_le_expand (s : Setting) (l : Ledger) (solution : Solution) :
    l.nextVar ≤ (expand s l solution).2.nextVar := by
  rcases expand_cases s l solution with hnone | ⟨position, g, cs, l', -, -, -, hexpand, -, hle⟩
  · exact Nat.le_of_eq (by rw [hnone])
  · rw [hexpand, nextVar_enterAll]
    exact hle

/-- The variables of a child are older than the numbers that are fresh afterwards. -/
theorem below_of_mem_expand {s : Setting} {l : Ledger} {solution child : Solution}
    (below : ∀ g ∈ solution, ∀ name ∈ g.fact.varNames, name.Below l.nextVar)
    (h : child ∈ (expand s l solution).1) :
    ∀ g ∈ child, ∀ name ∈ g.fact.varNames, name.Below (expand s l solution).2.nextVar := by
  have hle := nextVar_le_expand s l solution
  obtain ⟨before, g, behind, head, body, b, rfl, -, hresolvent, hb, rfl⟩ := exists_of_mem_expand h
  generalize (expand s l (before ++ g :: behind)).2.nextVar = next at hle hresolvent ⊢
  have hbody : ∀ f ∈ body, ∀ name ∈ f.varNames, name.Below next := by
    cases hresolvent with
    | value _ _ _ _ => simp
    | recorded _ _ => simp
    | renamed _ _ _ free =>
      intro f hf name hname
      exact (Clause.below_renameApart (List.mem_cons_of_mem _ hf) hname).mono free
  have hwithin : b.Within (VarName.Below next) :=
    Bindings.within_of_unify (fun name hname => (below g (by simp) name hname).mono hle) hb
  intro d hd
  rcases mem_discharge ((compact_fst _ _).2.1.subset hd) with ⟨old, hold, heq⟩ | hnew
  · rw [heq]
    exact hwithin.substitute fun name hname => (below old hold name hname).mono hle
  · obtain ⟨f, hf, heq⟩ := List.mem_map.1 hnew
    rw [← heq]
    exact hwithin.substitute (hbody f hf)

end Horn.Search
