import Horn.Proofs.Search.Simulation

/-!
Searches that differ in the names of variables only.

If the variables of two solutions correspond and everything else is the same, depths included, so it is
of what they are expanded into, and the same facts are recorded: `simulation_variants`. The clauses may
have other names as well, since they are renamed before they are tried: `Simulation.ofVariant`.
-/

set_option autoImplicit false
set_option relaxedAutoImplicit false

namespace Horn

namespace Correspondence

open Search (Ledger)

variable {m : Correspondence} {f g : Fact}

/-! ### The memo -/

private theorem findFrom?_eq (same : m.literals = Eq) {as bs : List Atom}
    (h : List.Forall₂ m.OfAtom as bs) (t : Memo.Trie) (path : List Literal) :
    t.findFrom? path as = t.findFrom? path bs := by
  induction h generalizing path with
  | nil => rfl
  | cons first _ ih =>
    cases first with
    | var _ _ => simp only [Memo.Trie.findFrom?, ih]
    | lit literals =>
      rw [same] at literals
      rw [Memo.Trie.findFrom?, Memo.Trie.findFrom?, literals, ih]

/-- The memo gives the same tuple for a goal, whatever its variables are named. -/
theorem OfFact.cachedTuple?_eq (same : m.literals = Eq) (h : m.OfFact f g) (l : Ledger) :
    Search.cachedTuple? l f = Search.cachedTuple? l g := by
  have hlookup : l.memo.lookup g.key f.args = l.memo.lookup g.key g.args := by
    rw [Memo.lookup, Memo.lookup]
    exact congrArg _ (funext fun t => findFrom?_eq same h.args t [])
  rw [Search.cachedTuple?, Search.cachedTuple?, h.key, hlookup]

theorem OfFact.recordFact_eq (same : m.literals = Eq) (h : m.OfFact f g) (memo : Memo) :
    Ledger.recordFact memo f = Ledger.recordFact memo g := by
  have hliterals := h.literals?
  rw [same, List.forall₂_eq_eq_eq] at hliterals
  rw [Ledger.recordFact, Ledger.recordFact, h.key]
  generalize f.literals? = values at hliterals
  generalize g.literals? = values' at hliterals
  cases hliterals with
  | none => rfl
  | some heq => rw [heq]

private theorem foldl_recordFact_eq (same : m.literals = Eq) {fs gs : List Fact}
    (h : List.Forall₂ m.OfFact fs gs) (memo : Memo) :
    fs.foldl Ledger.recordFact memo = gs.foldl Ledger.recordFact memo := by
  induction h generalizing memo with
  | nil => rfl
  | cons first _ ih => rw [List.foldl_cons, List.foldl_cons, first.recordFact_eq same, ih]

private theorem OfAttempt.enter {deep : Prop} (same : m.literals = Eq) {x y : Search.Attempt}
    (h : m.OfAttempt deep x y) {l l' : Ledger} (agrees : l.Agrees l') :
    (l.enter x).Agrees (l'.enter y) := by
  cases h with
  | rejected => exact agrees
  | undefined key => exact agrees.enter (.undefined key)
  | discharged facts made =>
    refine ⟨?_, agrees.nextVar, agrees.stats⟩
    simp only [Ledger.enter, Ledger.spend]
    rw [foldl_recordFact_eq same facts, agrees.memo]

/-! ### Clauses -/

private theorem OfCondition.eq (same : m.literals = Eq) {c d : Condition} (h : m.OfCondition c d) :
    c = d := by
  obtain ⟨operator, operand⟩ := c
  obtain ⟨operator', operand'⟩ := d
  obtain ⟨hoperator, hoperand⟩ := h
  rw [same] at hoperand
  exact congrArg₂ Condition.mk hoperator hoperand

/-- Facts that correspond become the same fact once their variables are numbered. -/
theorem OfFact.rename_eq (same : m.literals = Eq) (h : m.OfFact f g) {xs ys : List VarName}
    (names : List.Forall₂ m.names xs ys) (start : Nat) :
    f.rename ((Numbering.ofNames xs).fresh start) = g.rename ((Numbering.ofNames ys).fresh start) := by
  have hatom (a b : Atom) (hab : m.OfAtom a b) :
      a.rename ((Numbering.ofNames xs).fresh start) =
        b.rename ((Numbering.ofNames ys).fresh start) := by
    cases hab with
    | lit literals =>
      rw [same] at literals
      rw [literals]
      rfl
    | @var v w hvw conditions =>
      have hcondition : v.condition = w.condition := by
        generalize v.condition = condition at conditions
        generalize w.condition = condition' at conditions
        cases conditions with
        | none => rfl
        | some hcd => rw [hcd.eq same]
      rw [Atom.rename, Atom.rename, Numbering.fresh, Numbering.fresh, number_eq names hvw, hcondition]
  have hargs : List.Forall₂ Eq (f.args.map (Atom.rename ((Numbering.ofNames xs).fresh start)))
      (g.args.map (Atom.rename ((Numbering.ofNames ys).fresh start))) :=
    List.rel_map (fun a b => hatom a b) h.args
  rw [List.forall₂_eq_eq_eq] at hargs
  rw [Fact.rename, Fact.rename, h.functor, hargs]

/-- Clauses that correspond become the same clause once they are renamed. -/
theorem renameApart_eq (same : m.literals = Eq) {c d : Clause} (head : m.OfFact c.head d.head)
    (body : List.Forall₂ m.OfFact c.body d.body) (count : c.count = d.count) (start : Nat) :
    c.renameApart start = d.renameApart start := by
  have hnames : List.Forall₂ m.names (c.facts.flatMap Fact.varNames) (d.facts.flatMap Fact.varNames) :=
    List.rel_flatMap (List.Forall₂.cons head body) fun _ _ h => h.varNames
  have hlength : (Numbering.ofFacts c.facts).length = (Numbering.ofFacts d.facts).length :=
    (forall₂_ofNames hnames).length_eq
  have hbody : List.Forall₂ Eq
      (c.body.map (Fact.rename ((Numbering.ofFacts c.facts).fresh start)))
      (d.body.map (Fact.rename ((Numbering.ofFacts d.facts).fresh start))) :=
    List.rel_map (fun _ _ h => h.rename_eq same hnames start) body
  rw [List.forall₂_eq_eq_eq] at hbody
  have hhead : c.head.rename ((Numbering.ofFacts c.facts).fresh start) =
      d.head.rename ((Numbering.ofFacts d.facts).fresh start) :=
    head.rename_eq same hnames start
  simp only [Clause.renameApart, hlength, hhead, hbody, count]

end Correspondence

namespace Search

variable {s s' : Setting} {l l' : Ledger} {a b : Solution}

/-! ### Solutions -/

/-- Solutions that differ in the names of variables only, and not in depths either. -/
def Variants (a b : Solution) : Prop :=
  ∃ m : Correspondence, m.literals = Eq ∧ m.OfSolutionAt True a b

theorem Variants.twins (h : Variants a b) : Twins a b := by
  obtain ⟨m, same, h⟩ := h
  exact ⟨m, same, h.ofSolution⟩

/-- The variables of a solution are older than a number. -/
def Older (next : Nat) (a : Solution) : Prop :=
  ∀ g ∈ a, ∀ name ∈ g.fact.varNames, name.Below next

theorem Older.mono {next later : Nat} (h : Older next a) (le : next ≤ later) : Older later a :=
  fun g hg name hname => (h g hg name hname).mono le

/-- Deterministic built-ins and the memo do not see names. -/
private theorem answering (agrees : l.Agrees l') (calm : Calm s a) {m : Correspondence}
    (same : m.literals = Eq) {g g' : Goal} (mem : g ∈ a) (hgoal : m.OfGoal g g') :
    m.Answering s l l' g.fact g'.fact := by
  constructor
  · intro hbuiltin hready
    have hinputs := hgoal.fact.inputsOf
    rw [same, List.forall₂_eq_eq_eq] at hinputs
    have hvalue : value? s l g.fact = value? s l' g'.fact := by
      rw [value?, value?, ← hinputs, ← hgoal.fact.functor]
      exact calm g mem hbuiltin _ _ _ (length_inputsOf hready)
    rw [same, hvalue]
    cases value? s l' g'.fact with
    | none => exact .none
    | some value => exact .some rfl
  · rw [cachedTuple?_eq agrees, hgoal.fact.cachedTuple?_eq same, same, List.forall₂_eq_eq_eq]
    cases cachedTuple? l' g'.fact with
    | none => exact .none
    | some values => exact .some rfl

private theorem ledgerFor_eq {m : Correspondence} (same : m.literals = Eq) {f g : Fact}
    (h : m.OfFact f g) : ledgerFor s l f = ledgerFor s l g := by
  rw [ledgerFor, ledgerFor, h.isBuiltin s, h.cachedTuple?_eq same, h.key]

private theorem enterAll_agrees {deep : Prop} {as as' : List Attempt} (agrees : l.Agrees l')
    (h : List.Forall₂ (fun x y => ∃ k : Correspondence, k.literals = Eq ∧ k.OfAttempt deep x y)
      as as') : (l.enterAll as).2.Agrees (l'.enterAll as').2 := by
  change (as.foldl Ledger.enter l).Agrees (as'.foldl Ledger.enter l')
  induction h generalizing l l' with
  | nil => exact agrees
  | cons first _ ih =>
    obtain ⟨k, same, hattempt⟩ := first
    exact ih (hattempt.enter same agrees)

private theorem forall₂_and {R : Solution → Solution → Prop} {P Q : Solution → Prop}
    {as bs : List Solution} (h : List.Forall₂ R as bs) (left : ∀ a ∈ as, P a) (right : ∀ b ∈ bs, Q b) :
    List.Forall₂ (fun a b => R a b ∧ P a ∧ Q b) as bs := by
  induction h with
  | nil => exact .nil
  | cons first _ ih =>
    rw [List.forall_mem_cons] at left right
    exact .cons ⟨first, left.1, right.1⟩ (ih left.2 right.2)

/-- With deterministic built-ins a search does not see the names of variables. -/
theorem simulation_variants (calls : CallsCalm s) :
    Simulation s s fun next a b => Variants a b ∧ (Older next a ∧ Calm s a) ∧ Older next b where
  mono h le := ⟨h.1, ⟨h.2.1.1.mono le, h.2.1.2⟩, h.2.2.mono le⟩
  like h := h.1.twins.looksLike
  tuple h := h.1.twins.tuple?_eq
  expand := by
    rintro l l' a b agrees ⟨⟨m, same, h⟩, ⟨ha, hcalm⟩, hb⟩
    -- What the children are related by besides names follows on each side alone.
    have hleftOlder : ∀ child ∈ (expand s l a).1, Older (expand s l a).2.nextVar child :=
      fun child => below_of_mem_expand ha
    have hleftCalm : ∀ child ∈ (expand s l a).1, Calm s child :=
      fun child => predicates_of_mem_expand (P := IsDeterministic s.registry) hcalm calls
    have hrightOlder : ∀ child ∈ (expand s l' b).1, Older (expand s l' b).2.nextVar child :=
      fun child => below_of_mem_expand (agrees.nextVar ▸ hb)
    obtain ⟨hledgers, hchildren⟩ : (expand s l a).2.Agrees (expand s l' b).2 ∧
        List.Forall₂ Variants (expand s l a).1 (expand s l' b).1 := by
      rcases h.expand (by rw [agrees.memo]) (fun _ _ => trivial) ha (agrees.nextVar ▸ hb)
          (fun g hg g' _ hgoal => answering agrees hcalm same hg hgoal) with
        ⟨hleft, hright⟩ | ⟨g, _, g', _, start, start', as, as', hgoal, hstart, hstart', hleft, hright, has⟩
      · rw [hleft, hright]
        exact ⟨agrees, .nil⟩
      · have hstarts : start.Agrees start' := by
          rw [ledgerFor_eq same hgoal.fact] at hstart
          exact hstart.symm.trans ((ledgerFor_agrees agrees g'.fact).trans hstart')
        rw [hleft, hright]
        rw [same] at has
        -- Each clause was renamed from another number on, so every child has a correspondence of its own.
        refine ⟨enterAll_agrees hstarts has, List.rel_filterMap ?_ has⟩
        rintro x y ⟨k, hk, hattempt⟩
        have hchild := hattempt.child?
        generalize x.child? = child at hchild
        generalize y.child? = child' at hchild
        cases hchild with
        | none => exact .none
        | some h => exact .some ⟨k, hk, h⟩
    refine ⟨hledgers, forall₂_and hchildren (fun child hchild => ⟨hleftOlder child hchild,
      hleftCalm child hchild⟩) fun child hchild => ?_⟩
    rw [hledgers.nextVar]
    exact hrightOlder child hchild

/-! ### Settings -/

/-- Settings with the same built-ins whose clauses become the same once they are renamed. -/
structure Setting.Variant (s s' : Setting) : Prop where
  registry : s.registry = s'.registry
  defines : s.program.defines = s'.program.defines
  renamed : ∀ next key, renameClauses next (s.program.candidates key) =
    renameClauses next (s'.program.candidates key)

/-- A search does not see the names of the variables of clauses. -/
theorem Setting.Variant.expand_eq (h : s.Variant s') (l : Ledger) (a : Solution) :
    (expand s l a).1 = (expand s' l a).1 ∧ (expand s l a).2.Agrees (expand s' l a).2 := by
  obtain ⟨r, program⟩ := s
  obtain ⟨_, program'⟩ := s'
  obtain ⟨rfl, defines, renamed⟩ := h
  simp only at defines renamed
  have hattempts : attempts ⟨r, program⟩ = attempts ⟨r, program'⟩ := by
    funext memoized solution position goal cs
    simp only [attempts, attempt, derive, Setting.isDefined, Setting.isBuiltin, defines]
  have hclauses (goal : Fact) :
      clausesFor ⟨r, program⟩ l goal = clausesFor ⟨r, program'⟩ l goal := by
    rw [clausesFor, clausesFor, renamedClauses, renamedClauses, renamed]
    rfl
  have hlength (key : String) :
      (program.candidates key).length = (program'.candidates key).length := by
    rw [← length_renameClauses 0, renamed, length_renameClauses]
  have hledger (goal : Fact) : ledgerFor ⟨r, program⟩ l goal = ledgerFor ⟨r, program'⟩ l goal := by
    rw [ledgerFor, ledgerFor]
    simp only [renamed, hlength]
    rfl
  have hchoose : choose ⟨r, program⟩ a = choose ⟨r, program'⟩ a := rfl
  rcases expand_pair l l hchoose with
    ⟨hleft, hright⟩ | ⟨position, g, g', start, start', hg, hg', -, hstart, hstart', hleft, hright⟩
  · rw [hleft, hright]
    exact ⟨rfl, .refl l⟩
  · obtain rfl : g = g' := Option.some.inj (hg.symm.trans hg')
    rw [← hledger] at hstart'
    rw [hleft, hright, hattempts, hclauses]
    exact ⟨rfl, (hstart.symm.trans hstart').enterAll _⟩

/-- A simulation of a setting in itself is one in every variant of it. -/
theorem Simulation.ofVariant {R : Nat → Solution → Solution → Prop} (sim : Simulation s s R)
    (h : s.Variant s') : Simulation s s' R where
  mono := sim.mono
  like := sim.like
  tuple := sim.tuple
  expand := by
    intro l l' a b agrees related
    obtain ⟨hledger, hchildren⟩ := sim.expand agrees related
    obtain ⟨hsame, hvariant⟩ := h.expand_eq l' b
    exact ⟨hledger.trans hvariant, hsame ▸ hchildren⟩

end Search

end Horn
