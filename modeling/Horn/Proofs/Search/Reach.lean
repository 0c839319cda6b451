import Horn.Proofs.Search.Pruning

/-!
What a search can reach, whatever the order of the clauses.

A search goes from its query to the children of what it has reached: `Reached`. Solutions that look
alike are tried with outcomes that are alike, also in a setting that lists the same clauses in another
order: `expand_alike`. So two such settings reach the same solutions, up to the names of variables, and
meet the same undefined predicates: `Reached.exists_like` and `Meets.of_sameRules`.
-/

set_option autoImplicit false
set_option relaxedAutoImplicit false

namespace Horn.Search

/-- Settings with the same built-ins and with the same clauses for each predicate, in any order. -/
structure Setting.SameRules (s s' : Setting) : Prop where
  registry : s.registry = s'.registry
  defines : ∀ key, s.program.defines key = s'.program.defines key
  candidates : ∀ key facts, facts ∈ (s.program.candidates key).map Clause.facts ↔
    facts ∈ (s'.program.candidates key).map Clause.facts

variable {s s' : Setting} {L : Literal → Prop} {l l' : Ledger} {a b query : Solution}

namespace Setting.SameRules

theorem symm (h : s.SameRules s') : s'.SameRules s :=
  ⟨h.registry.symm, fun key => (h.defines key).symm, fun key facts => (h.candidates key facts).symm⟩

theorem refl (s : Setting) : s.SameRules s :=
  ⟨rfl, fun _ => rfl, fun _ _ => Iff.rfl⟩

theorem isBuiltin (h : s.SameRules s') : s.isBuiltin = s'.isBuiltin := by
  funext f
  rw [Setting.isBuiltin, Setting.isBuiltin, h.registry]

theorem isDefined (h : s.SameRules s') : s.isDefined = s'.isDefined := by
  funext f
  rw [Setting.isDefined, Setting.isDefined, h.isBuiltin, h.defines]

theorem choose (h : s.SameRules s') (solution : Solution) :
    Search.choose s solution = Search.choose s' solution := by
  rw [Search.choose, Search.choose, h.isBuiltin]

theorem attempt (h : s.SameRules s') (memoized : String → Bool) (solution : Solution)
    (position : Nat) (goal head : Fact) (body : List Fact) :
    Search.attempt s memoized solution position goal head body =
      Search.attempt s' memoized solution position goal head body := by
  simp only [Search.attempt, derive, h.isDefined]

theorem callsSteady (h : s.SameRules s') (calls : CallsSteady s L) : CallsSteady s' L := by
  have hclause (key : String) (c : Clause) (hc : c ∈ s'.program.candidates key) :
      ∃ d ∈ s.program.candidates key, d.facts = c.facts :=
    List.mem_map.1 ((h.candidates key c.facts).2 (List.mem_map_of_mem hc))
  constructor
  · intro key c hc f hf
    obtain ⟨d, hd, hfacts⟩ := hclause key c hc
    exact calls.literals key d hd f (hfacts ▸ hf)
  · intro key c hc f hf hbuiltin
    obtain ⟨d, hd, hfacts⟩ := hclause key c hc
    have hbody : f ∈ d.body := (List.cons.inj hfacts).2 ▸ hf
    rw [← h.isBuiltin] at hbuiltin
    exact h.registry ▸ calls.builtins key d hd f hbody hbuiltin

theorem steady (h : s.SameRules s') {bound : Nat} (steady : Steady s L bound a) :
    Steady s' L bound a := by
  refine ⟨steady.below, steady.literals, fun g hg hbuiltin => ?_⟩
  rw [← h.isBuiltin] at hbuiltin
  exact h.registry ▸ steady.builtins g hg hbuiltin

end Setting.SameRules

/-! ### Attempts that are alike -/

/-- Goals that correspond are tried with clauses that correspond, listed anywhere. -/
private theorem exists_clauseFor (rules : s.SameRules s') (unmemoized : l.memo.enabled = [])
    (unmemoized' : l'.memo.enabled = []) {m : Correspondence} (h : m.OfSolution a b)
    (ha : ∀ g ∈ a, ∀ name ∈ g.fact.varNames, name.Below l.nextVar)
    (hb : ∀ g ∈ b, ∀ name ∈ g.fact.varNames, name.Below l'.nextVar) {g g' : Goal}
    (hgoal : m.OfGoal g g') (mem : g ∈ a) (mem' : g' ∈ b)
    (values : s.isBuiltin g.fact = true →
      Option.Rel m.literals (value? s l g.fact) (value? s' l' g'.fact))
    {c : Fact × List Fact} (hc : c ∈ clausesFor s l g.fact) :
    ∃ d ∈ clausesFor s' l' g'.fact, ∃ k : Correspondence, k.OfSolution a b ∧
      k.OfFact g.fact g'.fact ∧ k.OfFact c.1 d.1 ∧ List.Forall₂ k.OfFact c.2 d.2 := by
  have hbuiltin' : s'.isBuiltin g'.fact = s.isBuiltin g.fact := by
    rw [← rules.isBuiltin, hgoal.fact.isBuiltin]
  rw [clausesFor] at hc ⊢
  rw [hbuiltin']
  cases hbuiltin : s.isBuiltin g.fact with
  | true =>
    rw [hbuiltin, if_pos rfl, List.mem_map] at hc
    obtain ⟨output, houtput, rfl⟩ := hc
    have hvalue := values hbuiltin
    rw [Option.mem_toList.1 houtput] at hvalue
    generalize hfound : value? s' l' g'.fact = found at hvalue
    cases hvalue with
    | @some _ output' hrel =>
      refine ⟨(Fact.ofLiterals g'.fact.functor (inputsOf g'.fact ++ [output']), []), ?_, m, h,
        hgoal.fact, ?_, .nil⟩
      · rw [if_pos rfl]
        simp
      · rw [hgoal.fact.functor]
        exact Correspondence.ofFact_ofLiterals _
          (List.rel_append hgoal.fact.inputsOf (.cons hrel .nil))
  | false =>
    rw [hbuiltin, cachedTuple?_of_unmemoized unmemoized, renamedClauses] at hc
    rw [cachedTuple?_of_unmemoized unmemoized', renamedClauses]
    simp only [Bool.false_eq_true, if_false, List.mem_map] at hc ⊢
    obtain ⟨_, hrenamed, rfl⟩ := hc
    obtain ⟨c, hcandidate, start, hstart, -, rfl⟩ := mem_renameClauses hrenamed
    obtain ⟨d, hd, hfacts⟩ : ∃ d ∈ s'.program.candidates g'.fact.key, d.facts = c.facts := by
      rw [← List.mem_map, ← rules.candidates, ← hgoal.fact.key]
      exact List.mem_map_of_mem hcandidate
    obtain ⟨start', hstart', hmem⟩ := exists_mem_renameClauses hd l'.nextVar
    refine ⟨_, ⟨_, hmem, rfl⟩, m.renewed hstart hstart', ?_, hgoal.fact.renewed (ha g mem) (hb g' mem'),
      ?_⟩
    · exact (h.at.renewed ha hb).ofSolution
    · -- Both clauses have the same facts, of which names are paired off by their fresh numbers.
      have hfact (f : Fact) : (m.renewed hstart hstart').OfFact (f.rename (c.names.fresh start))
          (f.rename (c.names.fresh start')) :=
        Correspondence.ofFact_rename fun _ _ => .inr ⟨_, rfl, rfl⟩
      have hrenamed : List.Forall₂ (m.renewed hstart hstart').OfFact (c.renameApart start).1.facts
          (d.renameApart start').1.facts := by
        rw [Clause.facts_renameApart, Clause.facts_renameApart, Clause.names, Clause.names, hfacts,
          List.forall₂_map_left_iff, List.forall₂_map_right_iff, List.forall₂_same]
        exact fun f _ => hfact f
      exact List.forall₂_cons.1 hrenamed

private theorem exists_tried (rules : s.SameRules s') (unmemoized : l.memo.enabled = [])
    (unmemoized' : l'.memo.enabled = []) (ha : Steady s L l.nextVar a)
    (hb : Steady s' L l'.nextVar b) (like : looksLike a b = true) {x : Attempt}
    (mem : x ∈ tried s l a) :
    ∃ y ∈ tried s' l' b, ∃ k : Correspondence, k.OfAttempt False x y := by
  obtain ⟨m, h, all, -⟩ := Correspondence.exists_of_looksLike like
  obtain ⟨choice, g, c, hchoice, hg, hc, rfl⟩ := mem_tried.1 mem
  obtain ⟨g', hg', hgoal⟩ := h.at.exists_getElem? hg
  have hmem := List.mem_of_getElem? hg
  have hmem' := List.mem_of_getElem? hg'
  have hvalues : s.isBuiltin g.fact = true →
      Option.Rel m.literals (value? s l g.fact) (value? s' l' g'.fact) := by
    intro hbuiltin
    have hready : isEvaluable g.fact = true := isEvaluable_of_choose hchoice hg hbuiltin
    rw [value?, value?, ← rules.registry, ← hgoal.fact.functor]
    exact (ha.builtins g hmem hbuiltin).rel m all hready hgoal.fact.inputsOf (ha.literals g hmem)
      (hb.literals g' hmem') _ _
  obtain ⟨d, hd, k, hsolution, hfact, hhead, hbody⟩ :=
    exists_clauseFor rules unmemoized unmemoized' h ha.below hb.below hgoal.toOfGoal hmem hmem' hvalues
      hc
  have hnothing : ∀ key, (fun _ : String => false) key = true → False := by simp
  have hattempt := hsolution.at.attempt hnothing s choice.position hfact hhead hbody
  refine ⟨_, mem_tried.2 ⟨choice, g', d, ?_, hg', hd, rfl⟩, k, ?_⟩
  · rw [← rules.choose, ← h.choose, hchoice]
  · rw [isEnabled_of_unmemoized unmemoized, isEnabled_of_unmemoized unmemoized', ← rules.attempt]
    exact hattempt

/-- Solutions that look alike have children that look alike, and meet the same undefined predicates,
whatever the order of the clauses. -/
theorem expand_alike (rules : s.SameRules s') (unmemoized : l.memo.enabled = [])
    (unmemoized' : l'.memo.enabled = []) (ha : Steady s L l.nextVar a)
    (hb : Steady s' L l'.nextVar b) (like : looksLike a b = true) :
    (∀ c ∈ (expand s l a).1, ∃ d ∈ (expand s' l' b).1, looksLike c d = true) ∧
      ∀ key, Attempt.undefined key ∈ tried s l a → Attempt.undefined key ∈ tried s' l' b := by
  constructor
  · intro c hc
    obtain ⟨x, hx, hchild⟩ := mem_expand.1 hc
    obtain ⟨y, hy, k, hxy⟩ := exists_tried rules unmemoized unmemoized' ha hb like hx
    have hrel := hxy.child?
    rw [hchild] at hrel
    generalize hfound : y.child? = found at hrel
    cases hrel with
    | @some _ d hsolution => exact ⟨d, mem_expand.2 ⟨y, hy, hfound⟩, hsolution.ofSolution.looksLike⟩
  · intro key hkey
    obtain ⟨y, hy, k, hxy⟩ := exists_tried rules unmemoized unmemoized' ha hb like hkey
    cases hxy
    exact hy

/-! ### What is reached -/

/-- A ledger without memo whose free numbers are in use nowhere in a solution. -/
structure Ledger.IsFreshFor (l : Ledger) (solution : Solution) : Prop where
  unmemoized : l.memo.enabled = []
  below : ∀ g ∈ solution, ∀ name ∈ g.fact.varNames, name.Below l.nextVar

/-- What a search can reach without memo: the query, and the children of what it has reached. -/
inductive Reached (s : Setting) (query : Solution) : Solution → Prop
  | query : Reached s query query
  | child {l : Ledger} {a c : Solution} (reached : Reached s query a) (fresh : l.IsFreshFor a)
      (mem : c ∈ (expand s l a).1) : Reached s query c

/-- A search can meet a clause whose body has a goal of an undefined predicate. -/
def Meets (s : Setting) (query : Solution) (key : String) : Prop :=
  ∃ l a, Reached s query a ∧ l.IsFreshFor a ∧ Attempt.undefined key ∈ tried s l a

theorem Ledger.IsFreshFor.steady (fresh : l.IsFreshFor a) {bound : Nat} (h : Steady s L bound a) :
    Steady s L l.nextVar a :=
  { h with below := fresh.below }

theorem Reached.exists_steady (calls : CallsSteady s L) (steady : Steady s L 0 query)
    (h : Reached s query a) : ∃ bound, Steady s L bound a := by
  induction h with
  | query => exact ⟨0, steady⟩
  | @child l a c _ fresh mem ih =>
    obtain ⟨bound, hbound⟩ := ih
    exact ⟨_, (fresh.steady hbound).expand calls fresh.unmemoized mem⟩

theorem Steady.exists_fresh {bound : Nat} (h : Steady s L bound a) : ∃ l : Ledger, l.IsFreshFor a :=
  ⟨⟨∅, default, bound, .zero⟩, rfl, h.below⟩

private theorem Reached.expand_alike (rules : s.SameRules s') (calls : CallsSteady s L)
    (steady : Steady s L 0 query) (reached : Reached s query a) (reached' : Reached s' query b)
    (like : looksLike a b = true) (fresh : l.IsFreshFor a) :
    ∃ l' : Ledger, l'.IsFreshFor b ∧
      (∀ c ∈ (expand s l a).1, ∃ d ∈ (expand s' l' b).1, looksLike c d = true) ∧
      ∀ key, Attempt.undefined key ∈ tried s l a → Attempt.undefined key ∈ tried s' l' b := by
  obtain ⟨_, ha⟩ := reached.exists_steady calls steady
  obtain ⟨_, hb⟩ := reached'.exists_steady (rules.callsSteady calls) (rules.steady steady)
  obtain ⟨l', hl'⟩ := hb.exists_fresh
  exact ⟨l', hl', Search.expand_alike rules fresh.unmemoized hl'.unmemoized (fresh.steady ha)
    (hl'.steady hb) like⟩

/-- The same is reached whatever the order of the clauses, up to the names of variables. -/
theorem Reached.exists_like (rules : s.SameRules s') (calls : CallsSteady s L)
    (steady : Steady s L 0 query) (h : Reached s query a) :
    ∃ b, Reached s' query b ∧ looksLike a b = true := by
  induction h with
  | query => exact ⟨query, .query, looksLike_self query⟩
  | @child l a c reached fresh mem ih =>
    obtain ⟨b, hreached, hlike⟩ := ih
    obtain ⟨l', hl', hchildren, -⟩ :=
      reached.expand_alike rules calls steady hreached hlike fresh
    obtain ⟨d, hd, hlike'⟩ := hchildren c mem
    exact ⟨d, .child hreached hl' hd, hlike'⟩

/-- The same undefined predicates are met whatever the order of the clauses. -/
theorem Meets.of_sameRules (rules : s.SameRules s') (calls : CallsSteady s L)
    (steady : Steady s L 0 query) {key : String} (h : Meets s query key) : Meets s' query key := by
  obtain ⟨l, a, reached, fresh, hkey⟩ := h
  obtain ⟨b, hreached, hlike⟩ := reached.exists_like rules calls steady
  obtain ⟨l', hl', -, hundefined⟩ := reached.expand_alike rules calls steady hreached hlike fresh
  exact ⟨l', b, hreached, hl', hundefined key hkey⟩

end Horn.Search
