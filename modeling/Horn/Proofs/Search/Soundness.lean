import Horn.Proofs.Distinct
import Horn.Proofs.Search.Isolation
import Horn.Proofs.Unification.MostGeneral

/-!
Soundness of the search loop.

`Faithful` relates a partial solution to the query: its first goal is an instance of the query that
keeps the conditions of the query alive, no other goal calls the predicate of the query, and every
discharged goal is supported. `Progress.Sound` says this of all solutions of a search under way, and
that the memo holds what it should. One pass keeps it (`Progress.Sound.advance`), hence a run does
(`Progress.Sound.run`), wherever it is cut off.
-/

set_option autoImplicit false
set_option relaxedAutoImplicit false

namespace Horn.Search

open Builtin (Registry Ambient)

/-! ### Resolvents yield their goals -/

private theorem last_beq_of_append {us : List Literal} {u v : Literal}
    (h : (us ++ [u] == us ++ [v]) = true) : (v == u) = true := by
  induction us with
  | nil => exact BEq.symm (by simpa using h)
  | cons _ us ih => exact ih (by simpa using h)

/-- The values of a built-in goal with ground inputs are its inputs and one more. -/
theorem values_of_isEvaluable {goal : Fact} (ready : isEvaluable goal = true)
    (hne : goal.args ≠ []) (θ : Valuation) : ∃ value, goal.values θ = inputsOf goal ++ [value] := by
  obtain ⟨inputs, last, hargs, hinputs⟩ := haveInputs_append ready hne
  refine ⟨last.value θ, ?_⟩
  rw [inputsOf, hinputs, Fact.values, hargs, List.map_append, List.map_map]
  simp [Function.comp_def, Atom.value, Atom.term, Term.value]

section Step

variable {s : Setting} {l : Ledger} {clauses : List Clause} {Allowed : Clause → Valuation → Prop}

/-- A resolvent of a goal yields it: from the clause, the recorded tuple or the value of the
built-in that the resolvent stands for. -/
theorem yields_of_resolvent {g : Goal} {head : Fact} {body : List Fact} {b : Bindings}
    (candidates : ∀ key, ∀ c ∈ s.program.candidates key, c ∈ clauses)
    (memo : l.memo.Holds (Follows s.registry clauses))
    {next : Nat} (h : Resolvent s l next g.fact head body) (hb : unify head g.fact = some b) :
    Yields (Follows s.registry clauses) b (body.map b.substitute) g := by
  intro θ hbody
  have hvalues : (g.fact.values (b.under θ) == head.values (b.under θ)) = true :=
    BEq.symm (Bindings.values_eq_of_unify hb θ)
  have hfunctor : head.functor = g.fact.functor := (Bindings.unify_eq_some_iff.1 hb).1.1
  rw [Goal.Holds]
  cases h with
  | value ambient builtin ready evaluated =>
    have hne : g.fact.args ≠ [] := by
      intro hnil
      have hlen := List.length_eq_of_beq hvalues
      simp [Fact.arity, hnil] at hlen
    obtain ⟨value, hvalue⟩ := values_of_isEvaluable ready hne (b.under θ)
    rw [hvalue, Fact.values_ofLiterals] at hvalues
    rw [hvalue]
    exact .builtin ambient evaluated (last_beq_of_append (BEq.symm hvalues))
  | recorded user found =>
    rw [cachedTuple?, Option.ite_none_right_eq_some] at found
    obtain ⟨us, hus, hfollows, hlen⟩ := memo.belongs_of_lookup found.2
    rw [Fact.values_ofLiterals] at hvalues
    refine Derivable.of_beq ?_ hfollows (BEq.trans hvalues hus)
    rw [hlen]
    exact user
  | @renamed c start user candidate fresh =>
    rw [← hfunctor]
    change Derivable _ _ _ c.head.functor _
    rw [Clause.renameApart] at hvalues hbody
    rw [Fact.values_rename] at hvalues
    refine Derivable.clause (candidates _ c candidate) trivial (fun f hf => ?_) hvalues
    have hgoal := hbody _ (List.mem_map_of_mem (List.mem_map_of_mem hf))
    rwa [Bindings.values_substitute, Fact.values_rename] at hgoal

end Step

/-! ### Faithful solutions -/

/-- The first goal of a solution is an instance of the query that still carries its conditions, the
other goals call other predicates, and all discharged goals are supported. -/
structure Faithful (D : Meaning) (root : Fact) (query : Goal) (goals : Solution) : Prop where
  supported : Supported D (query :: goals)
  functor : query.fact.functor = root.functor
  isInstance : ∀ θ, ∃ η, query.fact.values θ = root.values η ∧
    (query.fact.Admits θ → root.Admits η)
  others : ∀ g ∈ goals, ¬ g.fact.IsCallOf root

/-- A solution that consists of a first goal and others, and is faithful to the query. -/
def IsFaithful (D : Meaning) (root : Fact) (solution : Solution) : Prop :=
  ∃ query goals, solution = query :: goals ∧ Faithful D root query goals

variable {D : Meaning} {root : Fact}

theorem isFaithful_start : IsFaithful D root [Goal.pending 0 root] :=
  ⟨_, [], rfl, ⟨⟨fun hres => absurd hres (by simp [Goal.pending]), trivial⟩, rfl,
    fun θ => ⟨θ, rfl, id⟩, by simp⟩⟩

/-- Discharging a goal keeps a solution faithful. -/
theorem faithful_discharge {query : Goal} {goals : Solution} (h : Faithful D root query goals)
    {position : Nat} {g : Goal} (hg : (query :: goals)[position]? = some g) {b : Bindings}
    {body : List Fact} (hyields : Yields D b body g)
    (hbody : ∀ f ∈ body, ¬ f.IsCallOf root) (hrespects : b.respects query.fact = true) :
    ∃ query' goals', discharge b body position (query :: goals) = query' :: goals' ∧
      Faithful D root query' goals' := by
  have hsupported := supported_discharge hg hyields h.supported
  have hothers : Isolated root (query :: goals) := h.others
  have hisolated : Isolated root (discharge b body position (query :: goals)) :=
    hothers.discharge hbody b position
  have hinstance : ∀ θ, ∃ η, (b.substitute query.fact).values θ = root.values η ∧
      ((b.substitute query.fact).Admits θ → root.Admits η) := by
    intro θ
    obtain ⟨η, hvalues, hadmits⟩ := h.isInstance (b.under θ)
    refine ⟨η, by rw [Bindings.values_substitute, hvalues], fun hθ => hadmits ?_⟩
    exact (Bindings.admits_under b query.fact θ).2 ⟨hrespects, hθ⟩
  cases position with
  | zero => exact ⟨_, _, rfl, hsupported, by simpa using h.functor, by simpa using hinstance, hisolated⟩
  | succ position =>
    exact ⟨_, _, rfl, hsupported, by simpa using h.functor, by simpa using hinstance, hisolated⟩

theorem Faithful.dropDischarged {query : Goal} {goals : Solution} (h : Faithful D root query goals)
    (memoized : String → Bool) : Faithful D root query (dropDischarged memoized goals) where
  supported := ⟨fun hres θ hopen => h.supported.1 hres θ (openHold_below_of_dropDischarged hopen),
    supported_dropDischarged memoized h.supported.2⟩
  functor := h.functor
  isInstance := h.isInstance
  others g hg := h.others g ((dropDischarged_sublist memoized goals).subset hg)

/-- What the soundness of a search rests on: which clauses there are, that no body calls the
predicate of the query, and what it means that a tuple belongs to another predicate. -/
structure Basis (s : Setting) (clauses : List Clause) (M : Meaning) (root : Fact) : Prop where
  candidates : ∀ key, ∀ c ∈ s.program.candidates key, c ∈ clauses
  uncalled : ∀ c ∈ clauses, ∀ g ∈ c.body, ¬ g.IsCallOf root
  follows_of : ∀ functor values, M functor values → Follows s.registry clauses functor values
  of_follows : ∀ functor values, ¬ (functor = root.functor ∧ values.length = root.arity) →
    Follows s.registry clauses functor values → M functor values

variable {s : Setting} {clauses : List Clause} {M : Meaning}

theorem Basis.spares (basis : Basis s clauses M root) : s.Spares root :=
  fun key c hc => basis.uncalled c (basis.candidates key c hc)

/-- An attempt on a faithful solution makes a faithful solution and proves only facts that belong to
their predicates. -/
theorem attempt_sound (basis : Basis s clauses M root) {l : Ledger} (memo : l.memo.Holds M)
    {memoized : String → Bool} {solution : Solution}
    (hfaithful : IsFaithful (Follows s.registry clauses) root solution)
    {position : Nat} {g : Goal} (hg : solution[position]? = some g) {head : Fact}
    {body proven : List Fact} {child : Option Solution} {next : Nat}
    (hr : Resolvent s l next g.fact head body)
    (h : attempt s memoized solution position g.fact head body = .discharged proven child) :
    (∀ f ∈ proven, f.isGround = true ∧ ∀ θ, M f.functor (f.values θ)) ∧
      ∀ new, child = some new → IsFaithful (Follows s.registry clauses) root new ∧
        (hasPending new = true ∨ isAnswer new = true) := by
  obtain ⟨query, goals, rfl, hfaithful⟩ := hfaithful
  obtain ⟨b, hb, -, -, hgoals, hproven, hchild⟩ := attempt_eq_discharged h
  have hyields := yields_of_resolvent basis.candidates (memo.mono basis.follows_of) hr hb
  obtain ⟨query', goals', hdischarge, hfaithful'⟩ := faithful_discharge hfaithful hg hyields
    (basis.spares.of_resolvent hr b) (hgoals query List.mem_cons_self)
  rw [hdischarge, compact_cons] at hproven hchild
  constructor
  · intro f hf
    rw [hproven] at hf
    obtain ⟨⟨g', hg', rfl⟩, -, hground, hholds⟩ :=
      holds_of_mem_provenGoals hfaithful'.supported.2 hf
    refine ⟨hground, fun θ => basis.of_follows _ _ ?_ (hholds θ)⟩
    rw [Fact.length_values]
    exact hfaithful'.others g' hg'
  · intro new hnew
    obtain ⟨rfl, hkept⟩ := hchild new hnew
    exact ⟨⟨query', _, rfl, hfaithful'.dropDischarged memoized⟩, hkept⟩

private theorem holds_recordFact {memo : Memo} (h : memo.Holds M) {f : Fact}
    (hf : ∀ θ, M f.functor (f.values θ)) : (Ledger.recordFact memo f).Holds M := by
  rw [Ledger.recordFact]
  split
  · rename_i values hvalues
    have heq := Fact.literals?_eq_some_iff.1 hvalues
    have hkey : f.key = predicateKey f.functor values.length := by
      rw [Fact.key, heq]
      simp [Fact.arity, Fact.ofLiterals]
    rw [hkey]
    refine h.record ?_
    have hf := hf fun _ => default
    rw [heq, Fact.values_ofLiterals] at hf
    exact hf
  · exact h

private theorem holds_enter {l : Ledger} (h : l.memo.Holds M) {a : Attempt}
    (ha : ∀ proven child, a = .discharged proven child →
      ∀ f ∈ proven, f.isGround = true ∧ ∀ θ, M f.functor (f.values θ)) :
    (l.enter a).memo.Holds M := by
  cases a with
  | rejected => exact h
  | undefined key => exact h
  | discharged proven child =>
    have hproven := ha proven child rfl
    change (proven.foldl Ledger.recordFact l.memo).Holds M
    clear ha
    generalize l.memo = memo at h
    induction proven generalizing memo with
    | nil => exact h
    | cons f rest ih =>
      rw [List.forall_mem_cons] at hproven
      exact ih hproven.2 _ (holds_recordFact h hproven.1.2)

/-- Expanding a faithful solution gives faithful solutions, and the memo holds afterwards what it
held before. -/
theorem expand_sound (basis : Basis s clauses M root) {l : Ledger} (memo : l.memo.Holds M)
    {solution : Solution} (hfaithful : IsFaithful (Follows s.registry clauses) root solution) :
    (∀ new ∈ (expand s l solution).1, IsFaithful (Follows s.registry clauses) root new ∧
      (hasPending new = true ∨ isAnswer new = true)) ∧ (expand s l solution).2.memo.Holds M := by
  rcases expand_cases s l solution with hnone | ⟨position, g, cs, l', hg, -, hcs, hexpand, hmemo, -⟩
  · rw [hnone]
    exact ⟨by simp, memo⟩
  have hattempts : ∀ a ∈ attempts s l.memo.isEnabled solution position g.fact cs,
      ∀ proven child, a = .discharged proven child →
        (∀ f ∈ proven, f.isGround = true ∧ ∀ θ, M f.functor (f.values θ)) ∧
          ∀ new, child = some new → IsFaithful (Follows s.registry clauses) root new ∧
            (hasPending new = true ∨ isAnswer new = true) := by
    intro a ha proven child hdischarged
    obtain ⟨c, hc, rfl⟩ := List.mem_map.1 ha
    exact attempt_sound basis memo hfaithful hg (hcs c hc) hdischarged
  rw [hexpand, Ledger.enterAll]
  constructor
  · intro new hnew
    obtain ⟨a, ha, hchild⟩ := List.mem_filterMap.1 hnew
    cases a with
    | rejected => simp [Attempt.child?] at hchild
    | undefined key => simp [Attempt.child?] at hchild
    | discharged proven child => exact (hattempts _ ha proven child rfl).2 new hchild
  · rw [← hmemo] at memo
    generalize attempts s l.memo.isEnabled solution position g.fact cs = as at hattempts
    clear hexpand hmemo hcs
    induction as generalizing l' with
    | nil => exact memo
    | cons a rest ih =>
      rw [List.forall_mem_cons] at hattempts
      have hfirst := holds_enter memo fun proven child ha => (hattempts.1 proven child ha).1
      exact ih _ hfirst hattempts.2

/-! ### The loop -/

/-- A search under way is sound: all solutions are faithful to the query, those that are finished
have no open goal and a ground query, and the memo holds what it should. -/
structure Progress.Sound (D M : Meaning) (root : Fact) (p : Progress) : Prop where
  opened : ∀ entry ∈ p.opened.toList, IsFaithful D root entry.2
  finished : ∀ solution ∈ p.finished,
    IsFaithful D root solution ∧ hasPending solution = false ∧ isAnswer solution = true
  memo : p.ledger.memo.Holds M

namespace Progress

theorem sound_start {l : Ledger} (memo : l.memo.Holds M) (D : Meaning) (root : Fact) :
    (start l root).Sound D M root where
  opened := by
    intro entry hentry
    obtain rfl : entry = (0, [Goal.pending 0 root]) := by simpa [start] using hentry
    exact isFaithful_start
  finished := by simp [start]
  memo := memo

private theorem Sound.takeIn {p : Progress} (h : p.Sound D M root) {child : Solution}
    (hchild : IsFaithful D root child) (hkept : hasPending child = true ∨ isAnswer child = true) :
    (p.takeIn child).Sound D M root := by
  rw [Progress.takeIn]
  simp only
  split
  · exact ⟨h.opened, h.finished, h.memo⟩
  · rw [file]
    split
    · refine ⟨?_, h.finished, h.memo⟩
      intro entry hentry
      rw [Queue.toList_push, List.mem_append, List.mem_singleton] at hentry
      rcases hentry with hentry | rfl
      · exact h.opened entry hentry
      · exact hchild
    · rename_i hdone
      refine ⟨h.opened, ?_, h.memo⟩
      intro solution hsolution
      rcases List.mem_cons.1 hsolution with rfl | hsolution
      · exact ⟨hchild, by simpa using hdone, hkept.resolve_left hdone⟩
      · exact h.finished solution hsolution

private theorem Sound.foldl_takeIn {p : Progress} (h : p.Sound D M root)
    {children : List Solution} (hchildren : ∀ child ∈ children,
      IsFaithful D root child ∧ (hasPending child = true ∨ isAnswer child = true)) :
    (children.foldl Progress.takeIn p).Sound D M root := by
  induction children generalizing p with
  | nil => exact h
  | cons child rest ih =>
    rw [List.forall_mem_cons] at hchildren
    exact ih (h.takeIn hchildren.1.1 hchildren.1.2) hchildren.2

/-- One pass keeps a search sound. -/
theorem Sound.advance (basis : Basis s clauses M root) {p : Progress}
    (h : p.Sound (Follows s.registry clauses) M root) {solution : Solution}
    {behind : Queue (Nat × Solution)}
    (hsolution : IsFaithful (Follows s.registry clauses) root solution)
    (hbehind : ∀ entry ∈ behind.toList, IsFaithful (Follows s.registry clauses) root entry.2) :
    (p.advance s solution behind).Sound (Follows s.registry clauses) M root := by
  rw [Progress.advance]
  obtain ⟨hchildren, hmemo⟩ :=
    expand_sound (l := p.ledger.count fun c => { c with iterations := c.iterations + 1 })
      basis h.memo hsolution
  refine Sound.foldl_takeIn ?_ hchildren
  exact ⟨hbehind, h.finished, hmemo⟩

/-- A run keeps a search sound, whether it comes to its end, is cut off by a deadline or runs out of
passes. -/
theorem Sound.run (basis : Basis s clauses M root) {stopEarly : Bool} {deadline : Option Nat}
    {passes : Nat} {p : Progress} (h : p.Sound (Follows s.registry clauses) M root) :
    (Search.run s stopEarly deadline passes p).progress.Sound
      (Follows s.registry clauses) M root := by
  induction passes generalizing p with
  | zero => exact h
  | succ passes ih =>
    rw [Search.run]
    split
    · exact h
    · split
      · exact h
      · rename_i solution behind hnext
        obtain ⟨number, hopened⟩ := toList_of_next? hnext
        have hfaithful := h.opened
        rw [hopened, List.forall_mem_cons] at hfaithful
        exact ih (h.advance basis hfaithful.1 hfaithful.2)

/-- No two answers are equal. -/
theorem pairwise_answers (stopEarly : Bool) (p : Progress) :
    (p.answers stopEarly).Pairwise fun us vs => (us == vs) = false := by
  rw [answers]
  split
  · exact (pairwise_distinct _).sublist (List.take_sublist _ _)
  · exact pairwise_distinct _

/-- The answers of a sound search are tuples of the query under valuations that satisfy its
conditions, and they belong to the predicate of the query. -/
theorem Sound.answers {p : Progress} (h : p.Sound D M root) {stopEarly : Bool}
    {values : List Literal} (hvalues : values ∈ p.answers stopEarly) :
    D root.functor values ∧ ∃ θ, values = root.values θ ∧ root.Admits θ := by
  have hfound : values ∈ p.finished.reverse.filterMap tuple? := by
    rw [Progress.answers] at hvalues
    refine mem_of_mem_distinct ?_
    split at hvalues
    · exact List.mem_of_mem_take hvalues
    · exact hvalues
  obtain ⟨solution, hsolution, htuple⟩ := List.mem_filterMap.1 hfound
  obtain ⟨⟨query, goals, rfl, hfaithful⟩, hnone, -⟩ :=
    h.finished solution (List.mem_reverse.1 hsolution)
  have hliterals : query.fact = Fact.ofLiterals query.fact.functor values :=
    Fact.literals?_eq_some_iff.1 (by simpa [tuple?] using htuple)
  have hquery (θ : Valuation) : query.fact.values θ = values := by
    rw [hliterals, Fact.values_ofLiterals]
  simp only [hasPending, List.any_cons, Bool.or_eq_false_iff, Bool.not_eq_false'] at hnone
  obtain ⟨η, hη, hadmits⟩ := hfaithful.isInstance fun _ => default
  refine ⟨?_, η, by rw [← hη, hquery], hadmits ?_⟩
  · have hholds := hfaithful.supported.holds hnone.1 (by simpa [hasPending] using hnone.2)
      fun _ => default
    rwa [Goal.Holds, hquery, hfaithful.functor] at hholds
  · rw [hliterals]
    exact Fact.admits_ofLiterals _ _ _

end Progress

end Horn.Search
