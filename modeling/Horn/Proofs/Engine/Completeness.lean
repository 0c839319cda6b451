import Horn.Proofs.Engine.Soundness
import Horn.Proofs.Search.Completeness

/-!
Searches on programs without built-ins find what is derivable.

A tuple of a goal that has a derivation, with all conditions fulfilled, is among the finished
solutions after a number of iterations that does not depend on deadlines: `Engine.found_complete`.
The heads of clauses bring in no variables there; a ground goal needs no such restriction.
-/

set_option autoImplicit false
set_option relaxedAutoImplicit false

namespace Horn.Engine

open Builtin (Ambient)
open Search (Listing)

variable {e : Engine} {goal : Fact}

/-- No body of the active table calls a built-in. -/
def IsUser (e : Engine) : Prop :=
  ∀ c ∈ e.clauses, ∀ g ∈ c.body, e.registry.contains g.functor g.arity = false

instance (e : Engine) : Decidable e.IsUser :=
  inferInstanceAs (Decidable (∀ c ∈ e.clauses, ∀ g ∈ c.body,
    e.registry.contains g.functor g.arity = false))

/-- No clause of a search calls a built-in, either, if its goal is none. -/
theorem IsUser.called (user : e.IsUser) (goalUser : e.registry.contains goal.functor goal.arity = false) :
    ∀ key, ∀ c ∈ (e.setting goal).program.candidates key, ∀ f ∈ c.body,
      (e.setting goal).isBuiltin f = false := by
  intro key c hc f hf
  rw [candidates_setting] at hc
  rcases List.mem_cons.1 (List.mem_filter.1 hc).1 with rfl | hc
  · rw [List.mem_singleton.1 hf]
    exact goalUser
  · exact user c hc f hf

/-- What completeness assumes of a program holds of the one that a search runs on. -/
theorem complete_setting (user : e.IsUser)
    (goalUser : e.registry.contains goal.functor goal.arity = false)
    (restricted : goal.isGround = true ∨ ∀ c ∈ e.clauses, c.IsRestricted) :
    Search.Complete (e.setting goal) (queryClause goal :: e.clauses)
      (goal.withFunctor queryFunctor) where
  isCandidate c hc := by
    rw [candidates_setting]
    exact List.mem_filter.2 ⟨hc, by simp⟩
  ofCandidate key c hc := by
    rw [candidates_setting] at hc
    exact (List.mem_filter.1 hc).1
  user c hc g hg := by
    rcases List.mem_cons.1 hc with rfl | hc
    · obtain rfl := List.mem_singleton.1 hg
      exact goalUser
    · exact user c hc g hg
  restricted := by
    refine restricted.imp id fun hclauses => List.forall_mem_cons.2 ⟨fun name hname => ?_, hclauses⟩
    exact ⟨goal, List.mem_singleton.2 rfl, hname⟩

/-- Names that a user wrote are older than any fresh number. -/
theorem below_of_named (named : ∀ name ∈ goal.varNames, ∃ text, name = .named text) {bound : Nat} :
    ∀ name ∈ goal.varNames, name.Below bound := by
  intro name hname
  obtain ⟨text, rfl⟩ := named name hname
  trivial

/-- The query leads to what is derivable for the goal. -/
private theorem exists_leads_start (user : e.IsUser)
    (goalUser : e.registry.contains goal.functor goal.arity = false) {θ : Valuation}
    (admits : goal.Admits θ)
    (derivable : Derivable e.registry e.clauses Clause.Admits goal.functor (goal.values θ)) :
    ∃ n, Search.Leads (queryClause goal :: e.clauses) (goal.values θ) n
      [Search.Goal.pending 0 (goal.withFunctor queryFunctor)] := by
  have hquery : Derivable e.registry (queryClause goal :: e.clauses) Clause.Admits queryFunctor
      (goal.values θ) := by
    refine .clause (c := queryClause goal) (θ := θ) List.mem_cons_self ?_ ?_ BEq.rfl
    · exact List.forall_mem_cons.2 ⟨admits, List.forall_mem_cons.2 ⟨admits, by simp⟩⟩
    · intro g hg
      obtain rfl := List.mem_singleton.1 hg
      exact derivable.mono (List.subset_cons_self _ _)
  have hbodies : ∀ c ∈ queryClause goal :: e.clauses, ∀ g ∈ c.body,
      e.registry.contains g.functor g.arity = false := by
    refine List.forall_mem_cons.2 ⟨fun g hg => ?_, user⟩
    obtain rfl := List.mem_singleton.1 hg
    exact goalUser
  obtain ⟨n, hforest⟩ := Forest.exists_cons hquery hbodies
    (Builtin.Registry.contains_queryFunctor _ _) 0 [] .nil
  refine ⟨n, θ, ?_, ?_, hforest⟩
  · rintro query ⟨⟩
    exact BEq.rfl
  · intro g hg
    obtain rfl := List.mem_singleton.1 hg
    exact admits

/-- In every state that a run comes to, the memo gives for the goal to expand no other answer than
the only possible one. -/
def GivesOnlyAnswers (e : Engine) (deadline : Option Nat) (goal : Fact) (ambient : Ambient) : Prop :=
  ∀ q, Listing.Visits (e.setting goal) false deadline
      (.start ⟨e.table.memo, ambient, 0, .zero⟩ (goal.withFunctor queryFunctor)) q →
    ∀ solution behind, q.base.next? false = some (solution, behind) →
      ∀ g ∈ (Search.pending solution).head?,
        Search.IsOnlyAnswer (queryClause goal :: e.clauses) q.base.ledger g.fact

/-- A memo without memoized predicates gives no answers. -/
theorem givesOnlyAnswers_of_unmemoized (unmemoized : e.table.memo.enabled = [])
    {deadline : Option Nat} {ambient : Ambient} : e.GivesOnlyAnswers deadline goal ambient := by
  intro q visits _ _ _ g _ values hvalues
  rw [Search.cachedTuple?, Memo.isEnabled, visits.enabled.trans unmemoized] at hvalues
  simp at hvalues

/-- A run finishes what is derivable for its goal, if it comes to its end or makes enough passes,
provided that the memo gives no other answers than the only possible ones. -/
theorem exists_tuple_of_listing (user : e.IsUser)
    (goalUser : e.registry.contains goal.functor goal.arity = false)
    (restricted : goal.isGround = true ∨ ∀ c ∈ e.clauses, c.IsRestricted)
    (named : ∀ name ∈ goal.varNames, ∃ text, name = .named text) {θ : Valuation}
    (admits : goal.Admits θ)
    (derivable : Derivable e.registry e.clauses Clause.Admits goal.functor (goal.values θ)) :
    ∃ N, ∀ (deadline : Option Nat) (passes : Nat) (ambient : Ambient),
      e.GivesOnlyAnswers deadline goal ambient →
      (e.listing deadline passes goal false ambient).1 = true ∨
        N ≤ (e.listing deadline passes goal false ambient).2.base.ledger.stats.iterations →
      ∃ solution ∈ (e.listing deadline passes goal false ambient).2.base.finished, ∃ values,
        Search.Progress.tuple? solution = some values ∧ (values == goal.values θ) = true := by
  obtain ⟨n, hleads⟩ := exists_leads_start user goalUser admits derivable
  refine ⟨Search.patience (e.clauses.length + 2) n 1 1, ?_⟩
  intro deadline passes ambient only done
  let start : Listing := .start ⟨e.table.memo, ambient, 0, .zero⟩ (goal.withFunctor queryFunctor)
  have hfitting : start.Fitting (e.setting goal) (goal.withFunctor queryFunctor) :=
    Listing.fitting_start (Builtin.Registry.contains_queryFunctor e.registry goal.arity)
      (below_of_named named)
  have hdue : start.Due _ _ _ _ :=
    Listing.due_of_standing List.mem_cons_self hleads (e.clauses.length + 2)
  refine (Listing.covering_start _ _).exists_tuple_of_run (complete_setting user goalUser restricted)
    (length_candidates_lt e goal) hfitting hdue only (done.imp_right fun hle => ?_)
  exact Nat.le_trans (Nat.le_of_eq (Nat.zero_add _)) hle

/-- A finished tuple is among the facts that a search finds. -/
private theorem exists_found {deadline : Option Nat} {passes : Nat} {ambient : Ambient}
    {answer : List Literal} {facts : List Fact} (unreserved : goal.functor ≠ queryFunctor)
    (found : (e.searchWithin deadline passes goal false ambient).2.found = some facts)
    (finished : (e.listing deadline passes goal false ambient).1 = true →
      ∃ solution ∈ (e.listing deadline passes goal false ambient).2.base.finished, ∃ values,
        Search.Progress.tuple? solution = some values ∧ (values == answer) = true) :
    ∃ f ∈ facts, (f == Fact.ofLiterals goal.functor answer) = true := by
  rw [found_eq unreserved] at found
  generalize e.listing deadline passes goal false ambient = result at found finished
  obtain ⟨ended, p⟩ := result
  cases ended with
  | false => simp [listed?] at found
  | true =>
    obtain ⟨solution, hsolution, values, htuple, hvalues⟩ := finished rfl
    obtain rfl := Option.some.inj found
    have hmem : values ∈ p.base.finished.reverse.filterMap Search.Progress.tuple? :=
      List.mem_filterMap.2 ⟨solution, List.mem_reverse.2 hsolution, htuple⟩
    obtain ⟨us, hus, heq⟩ := exists_mem_distinct hmem
    rw [distinct_eq_eraseDups] at hus
    refine ⟨_, List.mem_map_of_mem hus, ?_⟩
    rw [Fact.beq_ofLiterals]
    exact BEq.trans heq hvalues

/-- What is derivable for a goal, a search finds if it comes to its end. -/
theorem exists_found_of_derivable (goal : Fact) (user : e.IsUser) (unreserved : goal.functor ≠ queryFunctor)
    (goalUser : e.registry.contains goal.functor goal.arity = false)
    (restricted : goal.isGround = true ∨ ∀ c ∈ e.clauses, c.IsRestricted)
    (named : ∀ name ∈ goal.varNames, ∃ text, name = .named text) {θ : Valuation}
    (admits : goal.Admits θ)
    (derivable : Derivable e.registry e.clauses Clause.Admits goal.functor (goal.values θ))
    {deadline : Option Nat} {passes : Nat} {ambient : Ambient} {facts : List Fact}
    (found : (e.searchWithin deadline passes goal false ambient).2.found = some facts)
    (only : e.GivesOnlyAnswers deadline goal ambient) :
    ∃ f ∈ facts, (f == Fact.ofLiterals goal.functor (goal.values θ)) = true := by
  obtain ⟨N, hN⟩ := exists_tuple_of_listing user goalUser restricted named admits derivable
  exact exists_found unreserved found fun ended => hN deadline passes ambient only (.inl ended)

/-- Without memo and built-ins, and if the heads of clauses bring in no variables, a search finds
every instance of its goal that is derivable with all conditions fulfilled. The number of iterations
after which it is finished does not depend on when the search is cut off. -/
theorem found_complete (goal : Fact) (reachable : e.Reachable) (unmemoized : e.table.memo.enabled = [])
    (user : e.IsUser) (restricted : ∀ c ∈ e.clauses, c.IsRestricted)
    (goalUser : e.registry.contains goal.functor goal.arity = false)
    (named : ∀ name ∈ goal.varNames, ∃ text, name = .named text) {θ : Valuation}
    (admits : goal.Admits θ)
    (derivable : Derivable e.registry e.clauses Clause.Admits goal.functor (goal.values θ)) :
    (∃ N, ∀ (deadline : Option Nat) (passes : Nat) (ambient : Ambient),
      N ≤ (e.runWithin deadline passes goal false ambient).progress.ledger.stats.iterations →
        ∃ solution ∈ (e.runWithin deadline passes goal false ambient).progress.finished,
          ∃ values, Search.Progress.tuple? solution = some values ∧
            (values == goal.values θ) = true) ∧
      ∀ (deadline : Option Nat) (passes : Nat) (ambient : Ambient) (facts : List Fact),
        (e.searchWithin deadline passes goal false ambient).2.found = some facts →
          ∃ f ∈ facts, (f == Fact.ofLiterals goal.functor (goal.values θ)) = true := by
  have hunreserved : goal.functor ≠ queryFunctor := by
    obtain ⟨c, hc, -, -, hfunctor, -, -⟩ := derivable.exists_clause (by simpa using goalUser)
    exact hfunctor ▸ reachable.head_ne c hc
  constructor
  · obtain ⟨N, hN⟩ := exists_tuple_of_listing user goalUser (.inr restricted) named admits derivable
    refine ⟨N, fun deadline passes ambient hle => ?_⟩
    rw [runWithin_eq, Listing.progress_outcome] at hle ⊢
    exact hN deadline passes ambient (givesOnlyAnswers_of_unmemoized unmemoized) (.inr hle)
  · intro deadline passes ambient facts found
    exact exists_found_of_derivable goal user hunreserved goalUser (.inr restricted) named admits derivable
      found (givesOnlyAnswers_of_unmemoized unmemoized)

private def link (functor : String) (first second : Atom) : Fact :=
  ⟨functor, [first, second]⟩

private def nodeX : Atom := .var ⟨.named "X", none⟩
private def nodeY : Atom := .var ⟨.named "Y", none⟩
private def nodeZ : Atom := .var ⟨.named "Z", none⟩
private def node (n : Int64) : Atom := .lit (.integer n)

/-- Two edges, from 1 to 2 and back, and the paths along edges. -/
def cycle : Engine :=
  after [.assert (link "edge" (node 1) (node 2)) [], .assert (link "edge" (node 2) (node 1)) [],
    .assert (link "path" nodeX nodeY) [link "edge" nodeX nodeY],
    .assert (link "path" nodeX nodeZ) [link "edge" nodeX nodeY, link "path" nodeY nodeZ]]

private theorem clauses_cycle : cycle.clauses =
    [.once (link "edge" (node 1) (node 2)) [], .once (link "edge" (node 2) (node 1)) [],
      .once (link "path" nodeX nodeY) [link "edge" nodeX nodeY],
      .once (link "path" nodeX nodeZ) [link "edge" nodeX nodeY, link "path" nodeY nodeZ]] := by
  with_unfolding_all rfl

private theorem derivable_cycle (r : Builtin.Registry) :
    Derivable r cycle.clauses Clause.Admits "path" [.integer 1, .integer 1] := by
  have hadmits : ∀ c ∈ cycle.clauses, ∀ θ, c.Admits θ := by
    have hplain : ∀ c ∈ cycle.clauses, c.IsUnconditional := by decide +kernel
    exact fun c hc => (hplain c hc).admits
  let θ (x y z : Int64) : Valuation := fun name =>
    if name = .named "X" then .integer x else if name = .named "Y" then .integer y else .integer z
  have hfirst : Derivable r cycle.clauses Clause.Admits "edge" [.integer 1, .integer 2] := by
    have hc : Clause.once (link "edge" (node 1) (node 2)) [] ∈ cycle.clauses := by
      simp [clauses_cycle]
    exact .clause (θ := θ 0 0 0) hc (hadmits _ hc _) (by simp [Clause.once]) (by decide)
  have hsecond : Derivable r cycle.clauses Clause.Admits "edge" [.integer 2, .integer 1] := by
    have hc : Clause.once (link "edge" (node 2) (node 1)) [] ∈ cycle.clauses := by
      simp [clauses_cycle]
    exact .clause (θ := θ 0 0 0) hc (hadmits _ hc _) (by simp [Clause.once]) (by decide)
  have hback : Derivable r cycle.clauses Clause.Admits "path" [.integer 2, .integer 1] := by
    have hc : Clause.once (link "path" nodeX nodeY) [link "edge" nodeX nodeY] ∈ cycle.clauses := by
      simp [clauses_cycle]
    exact .clause (θ := θ 2 1 0) hc (hadmits _ hc _) (List.forall_mem_cons.2 ⟨hsecond, by simp⟩)
      (by decide)
  have hc : Clause.once (link "path" nodeX nodeZ) [link "edge" nodeX nodeY, link "path" nodeY nodeZ] ∈
      cycle.clauses := by
    simp [clauses_cycle]
  exact .clause (θ := θ 1 2 1) hc (hadmits _ hc _)
    (List.forall_mem_cons.2 ⟨hfirst, List.forall_mem_cons.2 ⟨hback, by simp⟩⟩) (by decide)

theorem found_complete_cycle :
    (∃ N, ∀ (deadline : Option Nat) (passes : Nat) (ambient : Ambient),
      N ≤ (cycle.runWithin deadline passes (link "path" (node 1) nodeX) false
          ambient).progress.ledger.stats.iterations →
        ∃ solution ∈ (cycle.runWithin deadline passes (link "path" (node 1) nodeX) false
            ambient).progress.finished,
          ∃ values, Search.Progress.tuple? solution = some values ∧
            (values == [.integer 1, .integer 1]) = true) ∧
      ∀ (deadline : Option Nat) (passes : Nat) (ambient : Ambient) (facts : List Fact),
        (cycle.searchWithin deadline passes (link "path" (node 1) nodeX) false ambient).2.found =
            some facts →
          ∃ f ∈ facts, (f == Fact.ofLiterals "path" [.integer 1, .integer 1]) = true := by
  refine found_complete (link "path" (node 1) nodeX) (θ := fun _ => .integer 1)
    (reachableBy_after fun _ _ _ => trivial) (by with_unfolding_all rfl) (by decide +kernel)
    (by unfold Clause.IsRestricted; decide +kernel) (by decide +kernel) ?_
    (Fact.IsUnconditional.admits (by decide +kernel) _) (derivable_cycle _)
  intro name hname
  obtain rfl : name = .named "X" := List.mem_singleton.1 hname
  exact ⟨"X", rfl⟩

end Horn.Engine
