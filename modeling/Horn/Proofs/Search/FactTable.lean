import Horn.Proofs.Search.Ground
import Horn.Proofs.Search.Saturation
import Horn.Proofs.Unification.Selection

/-!
Searches over facts.

If all clauses of a predicate are ground facts and nothing is memoized for it, a search makes two passes:
the first puts the goal in place of the query, the second tries the goal with every fact and finishes
one solution for each fact that it selects, in the order of the facts: `Listing.exists_listed`.
-/

set_option autoImplicit false
set_option relaxedAutoImplicit false

namespace Horn.Search

variable {s : Setting} {l : Ledger} {query : String} {goal : Fact}

/-- What a search over facts runs on: the query has one clause, which calls the goal; the clauses of the
goal are facts of its predicate, no two of them equal; and a user named the variables of the goal. -/
structure Tabulates (s : Setting) (query : String) (goal : Fact) : Prop where
  queryUser : s.isBuiltin (goal.withFunctor query) = false
  user : s.isBuiltin goal = false
  named : ∀ name ∈ goal.varNames, ∃ text, name = .named text
  clauses : s.program.candidates (goal.withFunctor query).key =
    [.once (goal.withFunctor query) [goal]]
  facts : ∀ c ∈ s.program.candidates goal.key, ∃ values, c.head = .ofLiterals goal.functor values ∧
    goal.arity = values.length ∧ c.body = []
  distinct : (s.program.candidates goal.key).Pairwise fun c d => (c.head == d.head) = false
  defined : s.program.defines goal.key = true ↔ s.program.candidates goal.key ≠ []

/-- The solution in which the goal is still to be proven. -/
def called (query : String) (goal : Fact) : Solution :=
  [⟨goal.withFunctor query, true, 0⟩, .pending 1 goal]

/-- Whether the head of a clause is a ground fact that a goal selects. -/
def Selected (goal : Fact) (c : Clause) : Bool :=
  c.head.literals?.any goal.selects

/-! ### The first pass -/

private theorem tried_of_choose {solution : Solution} {position : Nat} {g : Goal}
    (chosen : choose s solution = some (.clauses position)) (at_ : solution[position]? = some g)
    (user : s.isBuiltin g.fact = false) (uncached : cachedTuple? l g.fact = none) :
    tried s l solution = (renamedClauses s l g.fact).map fun c =>
      attempt s l.memo.isEnabled solution position g.fact c.1 c.2 := by
  rw [tried, chosen]
  simp only [Choice.position, at_, attempts, clausesFor, user, uncached, Bool.false_eq_true, if_false]

/-- The clause of the query is resolved with the query whatever the conditions of the goal are. -/
private theorem exists_unify_query (named : ∀ name ∈ goal.varNames, ∃ text, name = .named text)
    (query : String) (start : Nat) :
    let renamed := (Clause.renameApart start (.once (goal.withFunctor query) [goal])).1
    ∃ b, unify renamed.head (goal.withFunctor query) = some b ∧ renamed.body.all b.respects = true ∧
      renamed.body.map b.substitute = [goal] ∧ b.respects (goal.withFunctor query) = true ∧
      b.substitute (goal.withFunctor query) = goal.withFunctor query := by
  let c : Clause := .once (goal.withFunctor query) [goal]
  let change : VarName → VarName := c.names.fresh start
  have injective : ∀ x ∈ goal.varNames, ∀ y ∈ goal.varNames, change x = change y → x = y := by
    intro x hx y hy hsame
    have hnumber : c.names.number x = c.names.number y :=
      Nat.add_left_cancel (VarName.fresh.inj hsame)
    have hmem : x ∈ c.names := Clause.mem_names (f := goal) (by simp [c, Clause.facts, Clause.once]) hx
    exact (List.idxOf_inj hmem).1 hnumber
  have apart : ∀ x ∈ goal.varNames, ∀ y ∈ goal.varNames, change x ≠ y := by
    intro x _ y hy hsame
    obtain ⟨text, rfl⟩ := named y hy
    cases hsame
  obtain ⟨b, hb, hnames⟩ := Bindings.exists_unify_rename (f := goal.withFunctor query) injective apart
  have hold : ∀ name ∈ goal.varNames, b.resolve (.var (id name)) = .var name :=
    fun name hname => (hnames name hname).1
  have hnew : ∀ name ∈ goal.varNames, b.resolve (.var (change name)) = .var name :=
    fun name hname => (hnames name hname).2
  obtain ⟨-, -, -, hrespects⟩ := Bindings.unify_eq_some_iff.1 hb
  refine ⟨b, hb, ?_, ?_, hrespects, ?_⟩
  · change [goal.rename change].all b.respects = true
    rw [List.all_cons, List.all_nil, Bool.and_true]
    exact Bindings.respects_rename_of_resolve hnew
  · change [b.substitute (goal.rename change)] = [goal]
    rw [Bindings.substitute_rename_of_resolve hnew]
  · have hroot := Bindings.substitute_rename_of_resolve (f := goal.withFunctor query) hold
    rwa [Fact.rename_id] at hroot

/-- The query calls the goal, or the goal is noted as undefined. -/
private theorem tried_query (h : Tabulates s query goal)
    (uncached : cachedTuple? l (goal.withFunctor query) = none) :
    tried s l [.pending 0 (goal.withFunctor query)] =
      [if s.program.defines goal.key then .discharged [] (some (called query goal))
        else .undefined goal.key] := by
  have hchoose : choose s [.pending 0 (goal.withFunctor query)] = some (.clauses 0) :=
    choose_clauses_eq (show ∀ d ∈ ([] : Solution), d.resolved = true by simp) rfl
      (by simpa [pending, Goal.pending] using h.queryUser)
  obtain ⟨b, hb, hrespected, hbody, hroot, hkept⟩ := exists_unify_query h.named query l.nextVar
  rw [tried_of_choose hchoose (g := .pending 0 (goal.withFunctor query)) rfl h.queryUser uncached,
    renamedClauses]
  simp only [Goal.pending, h.clauses, renameClauses, List.map_cons, List.map_nil, List.cons.injEq,
    and_true]
  rw [attempt, hb]
  simp only
  have hdefined : s.isDefined goal = s.program.defines goal.key := by
    rw [Setting.isDefined, h.user, Bool.false_or]
  rw [derive, if_pos hrespected]
  simp only [hbody, List.find?_singleton, hdefined]
  cases s.program.defines goal.key with
  | false => rfl
  | true =>
    have hquery : (Goal.mk (goal.withFunctor query) false 0).substitute b =
        ⟨goal.withFunctor query, false, 0⟩ := by
      rw [Goal.substitute_eq, hkept]
    simp only [Bool.not_true, Bool.false_eq_true, if_false, List.all_cons, hroot, List.all_nil,
      Bool.and_true, if_true, discharge, hquery, compact_cons]
    rfl

/-! ### The second pass -/

/-- Facts are not changed when they are renamed. -/
private theorem renamedClauses_of_facts (h : Tabulates s query goal) (l : Ledger) :
    renamedClauses s l goal = (s.program.candidates goal.key).map fun c => (c.head, []) := by
  have hfacts := h.facts
  rw [renamedClauses]
  generalize s.program.candidates goal.key = candidates at hfacts
  generalize l.nextVar = next
  induction candidates generalizing next with
  | nil => rfl
  | cons c rest ih =>
    rw [List.forall_mem_cons] at hfacts
    obtain ⟨⟨values, hhead, -, hbody⟩, hrest⟩ := hfacts
    have hfirst : ((c.renameApart next).1.head, (c.renameApart next).1.body) = (c.head, []) := by
      change (c.head.rename _, c.body.map _) = _
      rw [hbody, hhead, Fact.rename_of_isGround (Fact.isGround_ofLiterals _ _)]
      rfl
    rw [renameClauses]
    simp only [List.map_cons, hfirst, ih hrest]

/-- A fact that the goal selects discharges it, and the query takes the values of the fact. -/
private theorem exists_attempt_eq (s : Setting) (query : String) {memoized : String → Bool}
    (unmemoized : memoized goal.key = false) {values : List Literal} (length : goal.arity = values.length)
    (selected : goal.selects values = true) :
    ∃ ws, attempt s memoized (called query goal) 1 goal (.ofLiterals goal.functor values) [] =
        .discharged [] (some (done query ws)) ∧ (ws == values) = true := by
  obtain ⟨b, hb⟩ := Option.isSome_iff_exists.1 ((unify_ofLiterals_iff length).2 selected)
  obtain ⟨ws, hws, hequal⟩ := Bindings.exists_substitute_eq hb
  obtain ⟨-, -, -, hrespects⟩ := Bindings.unify_eq_some_iff.1 hb
  have hroot : b.substitute (goal.withFunctor query) = .ofLiterals query ws := by
    have hargs : (b.substitute goal).args = ws.map Atom.lit := by
      rw [hws]
      rfl
    rw [Fact.ofLiterals, ← hargs]
    rfl
  have hgoals : ∀ g ∈ called query goal, b.respects g.fact = true := by
    intro g hg
    simp only [called, List.mem_cons, List.not_mem_nil, or_false] at hg
    rcases hg with rfl | rfl
    · exact hrespects
    · exact hrespects
  have hkey : (Goal.mk (b.substitute goal) true 1).key = goal.key := by
    rw [Goal.key, Fact.key, Bindings.functor_substitute, Bindings.arity_substitute]
    rfl
  have hkept : dropDischarged memoized [⟨b.substitute goal, true, 1⟩] = [] := by
    rw [dropDischarged, isAwaited, hkey, unmemoized]
    rfl
  have hproven : provenGoals memoized [⟨b.substitute goal, true, 1⟩] = [] := by
    rw [provenGoals, hkey, unmemoized]
    rfl
  have hchild : discharge b [] 1 (called query goal) =
      [⟨.ofLiterals query ws, true, 0⟩, ⟨b.substitute goal, true, 1⟩] := by
    rw [called, discharge, discharge, Goal.substitute_eq, Goal.pending, Goal.substitute_eq, hroot]
    rfl
  refine ⟨ws, ?_, hequal⟩
  rw [attempt, hb]
  simp only
  rw [derive_eq_discharged List.all_nil (by simp) hgoals, List.map_nil, hchild, compact_cons, hkept,
    hproven]
  simp only
  rw [if_pos]
  · rfl
  · exact Bool.or_eq_true_iff.2 (.inr (Fact.isGround_ofLiterals query ws))

private theorem attempt_eq_rejected {memoized : String → Bool} {values : List Literal}
    (length : goal.arity = values.length) (unselected : goal.selects values = false) :
    attempt s memoized (called query goal) 1 goal (.ofLiterals goal.functor values) [] = .rejected := by
  have hnone : unify (.ofLiterals goal.functor values) goal = none := by
    rw [← Option.not_isSome_iff_eq_none, unify_ofLiterals_iff length, unselected]
    exact Bool.false_ne_true
  rw [attempt, hnone]

/-- The goal is tried with every fact, and the ones that it selects finish a solution each. -/
private theorem exists_answers (h : Tabulates s query goal) (l : Ledger)
    (unmemoized : l.memo.isEnabled goal.key = false) : ∃ answers,
      (expand s l (called query goal)).1 = answers.map (done query) ∧
      (expand s l (called query goal)).2.stats.undefined = l.stats.undefined ∧
      List.Forall₂ (fun ws c => (Fact.ofLiterals goal.functor ws == c.head) = true) answers
        ((s.program.candidates goal.key).filter (Selected goal)) := by
  have hchoose : choose s (called query goal) = some (.clauses 1) :=
    choose_clauses_eq
      (show ∀ d ∈ ([⟨goal.withFunctor query, true, 0⟩] : Solution), d.resolved = true by simp) rfl
      (by simpa [pending, Goal.pending] using h.user)
  have huncached : cachedTuple? l goal = none := by
    rw [cachedTuple?, if_neg (by simp [unmemoized])]
  have htried : tried s l (called query goal) = (s.program.candidates goal.key).map fun c =>
      attempt s l.memo.isEnabled (called query goal) 1 goal c.head [] := by
    rw [tried_of_choose hchoose (g := .pending 1 goal) rfl h.user huncached]
    change (renamedClauses s l goal).map _ = _
    rw [renamedClauses_of_facts h, List.map_map]
    rfl
  obtain ⟨start, hstart, hexpand⟩ := expand_eq_enterAll s l (called query goal)
  rw [hexpand, htried]
  change ∃ answers, (List.map _ _).filterMap Attempt.child? = _ ∧
    ((List.map _ _).foldl Ledger.enter start).stats.undefined = _ ∧ _
  rw [← hstart]
  clear hexpand hstart htried
  have hfacts := h.facts
  generalize s.program.candidates goal.key = candidates at hfacts
  induction candidates generalizing start with
  | nil => exact ⟨[], rfl, rfl, .nil⟩
  | cons c rest ih =>
    rw [List.forall_mem_cons] at hfacts
    obtain ⟨⟨values, hhead, hlength, -⟩, hrest⟩ := hfacts
    have hliterals : c.head.literals? = some values := by
      rw [hhead]
      exact Fact.literals?_eq_some_iff.2 rfl
    have hselected : Selected goal c = goal.selects values := by
      rw [Selected, hliterals, Option.any_some]
    rw [List.map_cons, List.foldl_cons, hhead]
    cases hselects : goal.selects values with
    | false =>
      rw [attempt_eq_rejected hlength hselects]
      obtain ⟨answers, hchildren, hundefined, hanswers⟩ := ih start hrest
      refine ⟨answers, hchildren, hundefined, ?_⟩
      rwa [List.filter_cons_of_neg (by simp [hselected, hselects])]
    | true =>
      obtain ⟨ws, hattempt, hequal⟩ := exists_attempt_eq s query unmemoized hlength hselects
      rw [hattempt]
      obtain ⟨answers, hchildren, hundefined, hanswers⟩ :=
        ih (start.enter (.discharged [] (some (done query ws)))) hrest
      refine ⟨ws :: answers, ?_, hundefined, ?_⟩
      · rw [List.map_cons, ← hchildren]
        rfl
      · rw [List.filter_cons_of_pos (by simp [hselected, hselects])]
        refine .cons ?_ hanswers
        rwa [hhead, Fact.beq_ofLiterals]

/-! ### Both passes -/

private theorem beq_of_looksLike_done {us vs : List Literal}
    (h : looksLike (done query us) (done query vs) = true) : (us == vs) = true := by
  obtain ⟨m, hsolution, -, -⟩ := Correspondence.exists_of_looksLike h
  change List.Forall₂ m.OfGoal _ _ at hsolution
  have hfact := (List.forall₂_cons.1 hsolution).1.fact.beq
  rwa [Fact.beq_ofLiterals] at hfact

private theorem pairwise_of_forall₂ {functor : String} {tuples : List (List Literal)}
    {clauses : List Clause}
    (h : List.Forall₂ (fun ws c => (Fact.ofLiterals functor ws == c.head) = true) tuples clauses)
    (distinct : clauses.Pairwise fun c d => (c.head == d.head) = false) :
    tuples.Pairwise fun us ws => (us == ws) = false := by
  induction h with
  | nil => exact .nil
  | @cons us c tuples clauses hfirst hrest ih =>
    rw [List.pairwise_cons] at distinct ⊢
    refine ⟨fun ws hws => Bool.eq_false_iff.2 fun hequal => ?_, ih distinct.2⟩
    obtain ⟨d, hd, hother⟩ := exists_right_of_forall₂ hrest hws
    have hheads : (c.head == d.head) = true := by
      rw [← Fact.beq_ofLiterals functor] at hequal
      exact BEq.trans (BEq.symm hfirst) (BEq.trans hequal hother)
    rw [distinct.1 d hd] at hheads
    cases hheads

namespace Listing

/-- Solutions without open goals that look like none before are finished one after the other. -/
theorem finished_foldl_of_unlike {children : List Solution} {p : Listing}
    (closed : ∀ a ∈ children, hasPending a = false)
    (unknown : ∀ a ∈ children, ∀ b ∈ p.made, looksLike b a = false)
    (unlike : children.Pairwise fun a b => looksLike a b = false) :
    (children.foldl takeIn p).base.finished = children.reverse ++ p.base.finished ∧
      (children.foldl takeIn p).base.opened = p.base.opened := by
  induction children generalizing p with
  | nil => exact ⟨rfl, rfl⟩
  | cons child rest ih =>
    rw [List.forall_mem_cons] at closed unknown
    rw [List.pairwise_cons] at unlike
    have hknown : p.isKnown child = false := List.any_eq_false.2 fun b hb => by
      simp [unknown.1 b hb]
    have hfiled : (p.takeIn child).base.finished = child :: p.base.finished ∧
        (p.takeIn child).base.opened = p.base.opened := by
      rw [takeIn, if_neg (by simp [hknown]), Progress.file, if_neg (by simp [closed.1])]
      exact ⟨rfl, rfl⟩
    have hmade : ∀ a ∈ rest, ∀ b ∈ (p.takeIn child).made, looksLike b a = false := by
      intro a ha b hb
      rcases List.mem_cons.1 hb with rfl | hb
      · exact unlike.1 a ha
      · exact unknown.2 a ha b hb
    obtain ⟨hfinished, hopened⟩ := ih closed.2 hmade unlike.2
    rw [List.foldl_cons, hfinished, hopened, hfiled.1, hfiled.2, List.reverse_cons,
      List.append_assoc]
    exact ⟨rfl, rfl⟩

/-- The first pass of a search over facts. -/
private theorem exists_called (h : Tabulates s query goal) {l : Ledger}
    (uncached : cachedTuple? l (goal.withFunctor query) = none) (fresh : l.stats = .zero) :
    ∃ p, (∀ passes, run s false none (passes + 1) (start l (goal.withFunctor query)) =
        run s false none passes p) ∧
      p.base.finished = [] ∧ p.base.firstFinished = none ∧ p.base.ledger.stats.iterations = 1 ∧
      p.base.ledger.memo.enabled = l.memo.enabled ∧ (∀ a ∈ p.made, hasPending a = true) ∧
      p.base.opened.toList =
        (if s.program.defines goal.key then [(1, called query goal)] else []) ∧
      p.undefined = if s.program.defines goal.key then [] else [goal.key] := by
  let root : Solution := [.pending 0 (goal.withFunctor query)]
  let p : Listing := start l (goal.withFunctor query)
  have hopen : p.base.opened.toList = [(0, root)] := rfl
  obtain ⟨behind, hbehind, hnext⟩ := exists_next? hopen rfl
  have hiterations : (p.advance s root behind).base.ledger.stats.iterations = 1 := by
    rw [iterations_advance]
    change l.stats.iterations + 1 = 1
    rw [fresh]
    rfl
  obtain ⟨entered, hentered, hexpand⟩ := expand_eq_enterAll s p.counted root
  have hclean : entered.stats.undefined = [] := by
    rw [hentered]
    change l.stats.undefined = []
    rw [fresh]
    rfl
  have hcounted : cachedTuple? p.counted (goal.withFunctor query) = none := uncached
  rw [tried_query h hcounted] at hexpand
  refine ⟨p.advance s root behind, fun passes => run_succ_of_next rfl (hnext false), ?_⟩
  have hundefined := undefined_advance s p root behind
  have henabled := enabled_advance s p root behind
  rw [hexpand] at hundefined
  cases hdefines : s.program.defines goal.key with
  | false =>
    rw [hdefines] at hexpand hundefined
    have hadvance : p.advance s root behind = p.popped s root behind := by
      rw [advance_eq, hexpand]
      rfl
    have hreport : (p.advance s root behind).undefined = [goal.key] := by
      rw [hundefined]
      change (entered.stats.report goal.key).undefined = [goal.key]
      rw [Stats.report, hclean, if_neg List.not_mem_nil]
      rfl
    refine ⟨?_, ?_, hiterations, henabled, ?_, ?_, hreport⟩
    · rw [hadvance]
      rfl
    · rw [hadvance]
      rfl
    · rw [hadvance]
      intro a ha
      obtain rfl := List.mem_singleton.1 ha
      rfl
    · rw [hadvance]
      exact hbehind
  | true =>
    rw [hdefines] at hexpand hundefined
    have hunknown : (p.popped s root behind).isKnown (called query goal) = false := by
      have hlike : looksLike root (called query goal) = false := by
        refine Bool.eq_false_iff.2 fun hlike => ?_
        exact absurd (length_eq_of_looksLike hlike) (by simp [root, called])
      change [root].any (looksLike · (called query goal)) = false
      simp [hlike]
    have hadvance : p.advance s root behind = (p.popped s root behind).takeIn (called query goal) := by
      rw [advance_eq, hexpand]
      rfl
    have hbase : (p.advance s root behind).base =
        (p.popped s root behind).base.file (called query goal) := by
      rw [hadvance, takeIn, if_neg (by simp [hunknown])]
    have hreport : (p.advance s root behind).undefined = [] := by
      rw [hundefined]
      exact hclean
    refine ⟨?_, ?_, hiterations, henabled, ?_, ?_, hreport⟩
    · rw [hbase]
      rfl
    · rw [hbase]
      rfl
    · rw [hadvance]
      intro a ha
      rcases List.mem_cons.1 ha with rfl | ha
      · rfl
      · obtain rfl := List.mem_singleton.1 ha
        rfl
    · rw [hbase]
      change (behind.push (1, called query goal)).toList = _
      rw [Queue.toList_push, hbehind]
      rfl

/-- A search over facts ends within three passes. It has the facts that the goal selects, in their order
and each once, and it has made two iterations, or one if there is no fact and the goal is undefined. -/
theorem exists_listed (h : Tabulates s query goal) {l : Ledger}
    (uncached : cachedTuple? l (goal.withFunctor query) = none)
    (unmemoized : l.memo.isEnabled goal.key = false) (fresh : l.stats = .zero) :
    ∃ p, (∀ passes, 3 ≤ passes →
        run s false none passes (start l (goal.withFunctor query)) = (true, p)) ∧
      List.Forall₂ (fun ws c => (Fact.ofLiterals goal.functor ws == c.head) = true) (p.answers false)
        ((s.program.candidates goal.key).filter (Selected goal)) ∧
      (p.answers false).Pairwise (fun us ws => (us == ws) = false) ∧
      (p.base.ledger.stats.iterations, p.undefined) =
        if s.program.defines goal.key then (2, []) else (1, [goal.key]) := by
  obtain ⟨p, hrun, hfinished, hfirst, hiterations, henabled, hmade, hopened, hundefined⟩ :=
    exists_called h uncached fresh
  cases hdefines : s.program.defines goal.key with
  | false =>
    rw [hdefines] at hopened hundefined
    have hnone : s.program.candidates goal.key = [] :=
      Decidable.byContradiction fun hne => by simp [h.defined.2 hne] at hdefines
    have hlast : p.base.next? false = none := by
      rw [Progress.next?, Queue.pop?_eq_none_iff.2 hopened]
    have hanswers : p.answers false = [] := by
      rw [answers, hfinished]
      rfl
    refine ⟨p, fun passes hle => ?_, ?_, ?_, ?_⟩
    · obtain ⟨rest, rfl⟩ := Nat.exists_eq_add_of_le' hle
      rw [hrun, run_of_last hlast (Nat.succ_ne_zero _)]
    · rw [hanswers, hnone]
      exact .nil
    · rw [hanswers]
      exact .nil
    · rw [hiterations, hundefined]
      rfl
  | true =>
    rw [hdefines] at hopened hundefined
    obtain ⟨behind, hbehind, hnext⟩ := exists_next? hopened hfirst
    have hplain : p.counted.memo.isEnabled goal.key = false := by
      change decide (goal.key ∈ p.base.ledger.memo.enabled) = false
      rw [henabled]
      exact unmemoized
    obtain ⟨tuples, hchildren, hclean, htuples⟩ := exists_answers h p.counted hplain
    have hdistinct := pairwise_of_forall₂ htuples (h.distinct.filter (Selected goal))
    have hclosed : ∀ a ∈ tuples.map (done query), hasPending a = false := by
      intro a ha
      obtain ⟨ws, -, rfl⟩ := List.mem_map.1 ha
      rfl
    have hunknown : ∀ a ∈ tuples.map (done query), ∀ b ∈ (p.popped s (called query goal) behind).made,
        looksLike b a = false := by
      intro a ha b hb
      refine Bool.eq_false_iff.2 fun hlike => ?_
      have hpending := hasPending_eq_of_looksLike hlike
      rw [hmade b hb, hclosed a ha] at hpending
      cases hpending
    have hunlike : (tuples.map (done query)).Pairwise fun a b => looksLike a b = false := by
      rw [List.pairwise_map]
      refine hdistinct.imp fun {us ws} hne => Bool.eq_false_iff.2 fun hlike => ?_
      rw [beq_of_looksLike_done hlike] at hne
      cases hne
    let q : Listing := p.advance s (called query goal) behind
    have hq : q = (tuples.map (done query)).foldl takeIn (p.popped s (called query goal) behind) := by
      rw [← hchildren]
      exact advance_eq s p _ behind
    obtain ⟨hlisted, hqueue⟩ := finished_foldl_of_unlike hclosed hunknown hunlike
    rw [← hq] at hlisted hqueue
    have hlast : q.base.next? false = none := by
      have hempty : q.base.opened.toList = [] := by
        rw [hqueue]
        exact hbehind
      rw [Progress.next?, Queue.pop?_eq_none_iff.2 hempty]
    have hanswers : q.answers false = tuples := by
      have hreverse : q.base.finished.reverse = tuples.map (done query) := by
        rw [hlisted]
        change ((tuples.map (done query)).reverse ++ p.base.finished).reverse = _
        rw [hfinished, List.append_nil, List.reverse_reverse]
      have hvalues : (tuples.map (done query)).filterMap Progress.tuple? = tuples := by
        rw [List.filterMap_map]
        refine (List.filterMap_congr fun ws _ => ?_).trans List.filterMap_some
        exact Fact.literals?_eq_some_iff.2 rfl
      rw [answers, hreverse, hvalues, eraseDups_eq_self hdistinct]
      rfl
    refine ⟨q, fun passes hle => ?_, ?_, ?_, ?_⟩
    · obtain ⟨rest, rfl⟩ := Nat.exists_eq_add_of_le' hle
      rw [hrun, run_succ_of_next rfl (hnext false), run_of_last hlast (Nat.succ_ne_zero _)]
    · rwa [hanswers]
    · rwa [hanswers]
    · have hcount : q.base.ledger.stats.iterations = 2 := by
        rw [iterations_advance, hiterations]
      have hreport : q.undefined = [] := by
        rw [undefined_advance, hclean]
        exact hundefined
      rw [hcount, hreport]
      rfl

end Listing

end Horn.Search
