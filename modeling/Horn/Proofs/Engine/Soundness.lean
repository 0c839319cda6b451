import Horn.Proofs.Engine.History
import Horn.Proofs.Engine.Listing
import Horn.Proofs.Search.Soundness

/-!
What the searches of an engine find and record follows from the clauses of its active table.

The clause that stands for a query adds nothing to the other predicates, as long as no body calls it:
`Engine.SparesQuery.basis`. So a run on the active table is sound, and with it the facts that a search returns
and the tuples that it leaves in the memo.
-/

set_option autoImplicit false
set_option relaxedAutoImplicit false

namespace Horn

open Builtin (Registry Ambient)

/-- The name of the query clause is no built-in. -/
theorem Builtin.Registry.contains_queryFunctor (r : Registry) (arity : Nat) :
    r.contains Engine.queryFunctor arity = false :=
  contains_eq_false (by decide) r arity

namespace Engine

variable {e : Engine} {Allowed : Engine → Operation → Prop}

/-- No clause of a reachable engine has a reserved head. -/
theorem ReachableBy.head_ne (reachable : ReachableBy Allowed e) :
    ∀ c ∈ e.clauses, c.head.functor ≠ queryFunctor :=
  fun c hc => (reachable.head_unprotected c hc).1

/-- No clause of the active table calls the predicate that stands for a query with this goal. -/
def SparesQuery (e : Engine) (goal : Fact) : Prop :=
  ∀ c ∈ e.clauses, ∀ g ∈ c.body, ¬ g.IsCallOf (queryClause goal).head

instance (e : Engine) (goal : Fact) : Decidable (e.SparesQuery goal) :=
  inferInstanceAs (Decidable (∀ c ∈ e.clauses, ∀ g ∈ c.body, ¬ g.IsCallOf (queryClause goal).head))

theorem sparesQuery_of_ne (uncalled : ∀ c ∈ e.clauses, ∀ g ∈ c.body, g.functor ≠ queryFunctor)
    (goal : Fact) : e.SparesQuery goal :=
  fun c hc g hg hcall => uncalled c hc g hg hcall.1

/-- The clause of a query adds nothing to the predicates that bodies call. -/
theorem SparesQuery.basis {goal : Fact} (spares : e.SparesQuery goal)
    (unreserved : goal.functor ≠ queryFunctor) :
    Search.Basis (e.setting goal) (queryClause goal :: e.clauses) (Follows e.registry e.clauses)
      (goal.withFunctor queryFunctor) where
  candidates key c hc := by
    rw [candidates_setting] at hc
    exact (List.mem_filter.1 hc).1
  uncalled c hc g hg := by
    rcases List.mem_cons.1 hc with rfl | hc
    · obtain rfl := List.mem_singleton.1 hg
      exact fun hcall => unreserved hcall.1
    · exact spares c hc g hg
  follows_of functor values h := h.mono (List.subset_cons_self _ _)
  of_follows functor values hother h := h.of_cons_of_uncalled spares hother

/-- The clause of a query adds nothing to the other predicates if no body has its functor. -/
theorem basis (uncalled : ∀ c ∈ e.clauses, ∀ g ∈ c.body, g.functor ≠ queryFunctor) {goal : Fact}
    (unreserved : goal.functor ≠ queryFunctor) :
    Search.Basis (e.setting goal) (queryClause goal :: e.clauses) (Follows e.registry e.clauses)
      (goal.withFunctor queryFunctor) :=
  (sparesQuery_of_ne uncalled goal).basis unreserved

/-- A run on the active table is sound however it ends. -/
theorem SparesQuery.sound {goal : Fact} (spares : e.SparesQuery goal)
    (memo : e.table.memo.Holds (Follows e.registry e.clauses)) (unreserved : goal.functor ≠ queryFunctor)
    (deadline : Option Nat) (passes : Nat) (stopEarly : Bool) (ambient : Ambient) :
    (e.runWithin deadline passes goal stopEarly ambient).progress.Sound
      (Follows e.registry (queryClause goal :: e.clauses)) (Follows e.registry e.clauses)
      (goal.withFunctor queryFunctor) :=
  (Search.Progress.sound_start memo _ _).run (spares.basis unreserved)

theorem sound_runWithin (uncalled : ∀ c ∈ e.clauses, ∀ g ∈ c.body, g.functor ≠ queryFunctor)
    (memo : e.table.memo.Holds (Follows e.registry e.clauses)) {goal : Fact}
    (unreserved : goal.functor ≠ queryFunctor) (deadline : Option Nat) (passes : Nat)
    (stopEarly : Bool) (ambient : Ambient) :
    (e.runWithin deadline passes goal stopEarly ambient).progress.Sound
      (Follows e.registry (queryClause goal :: e.clauses)) (Follows e.registry e.clauses)
      (goal.withFunctor queryFunctor) :=
  (sparesQuery_of_ne uncalled goal).sound memo unreserved deadline passes stopEarly ambient

/-- A tuple of the query follows from the clauses of the table as a tuple of the goal. -/
theorem SparesQuery.follows {goal : Fact} (spares : e.SparesQuery goal)
    (heads : ∀ c ∈ e.clauses, c.head.functor ≠ queryFunctor) (unreserved : goal.functor ≠ queryFunctor)
    {values : List Literal}
    (h : Follows e.registry (queryClause goal :: e.clauses) queryFunctor values) :
    ∃ us, (values == us) = true ∧ Follows e.registry e.clauses goal.functor us := by
  obtain ⟨θ, hbody, hvalues⟩ := Derivable.exists_of_cons (c := queryClause goal)
    (Builtin.Registry.contains_queryFunctor _ _) heads h
  have hgoal := hbody goal (List.mem_singleton.2 rfl)
  exact ⟨goal.values θ, hvalues, hgoal.of_cons_of_uncalled spares fun hcall => unreserved hcall.1⟩

theorem follows_of_query (heads : ∀ c ∈ e.clauses, c.head.functor ≠ queryFunctor)
    (uncalled : ∀ c ∈ e.clauses, ∀ g ∈ c.body, g.functor ≠ queryFunctor) {goal : Fact}
    (unreserved : goal.functor ≠ queryFunctor) {values : List Literal}
    (h : Follows e.registry (queryClause goal :: e.clauses) queryFunctor values) :
    ∃ us, (values == us) = true ∧ Follows e.registry e.clauses goal.functor us :=
  (sparesQuery_of_ne uncalled goal).follows heads unreserved h

/-- The facts that a search finds are the answers of its run. -/
theorem answers_of_found {deadline : Option Nat} {passes : Nat} {goal : Fact}
    {stopEarly : Bool} {ambient : Ambient} {facts : List Fact}
    (unreserved : goal.functor ≠ queryFunctor)
    (found : (e.searchWithin deadline passes goal stopEarly ambient).2.found = some facts) :
    facts = ((e.runWithin deadline passes goal stopEarly ambient).progress.answers stopEarly).map
      (Fact.ofLiterals goal.functor) := by
  rw [searchWithin, if_neg unreserved] at found
  simp only at found
  cases hrun : e.runWithin deadline passes goal stopEarly ambient with
  | timedOut p => simp [hrun, found?] at found
  | exhausted p =>
    rw [hrun, found?] at found
    exact (Option.some.inj found).symm

/-- A fact that a search finds is an instance of the goal that satisfies its conditions and follows
from the clauses of the active table. -/
theorem exists_of_mem_found (goal : Fact) (reachable : e.Reachable)
    (uncalled : ∀ c ∈ e.clauses, ∀ g ∈ c.body, g.functor ≠ queryFunctor)
    (memo : e.table.memo.Holds (Follows e.registry e.clauses)) (unreserved : goal.functor ≠ queryFunctor) {deadline : Option Nat} {passes : Nat}
    {stopEarly : Bool} {ambient : Ambient} {facts : List Fact}
    (found : (e.searchWithin deadline passes goal stopEarly ambient).2.found = some facts) {f : Fact}
    (mem : f ∈ facts) :
    ∃ θ, f = Fact.ofLiterals goal.functor (goal.values θ) ∧ goal.Admits θ ∧
      ∃ us, (goal.values θ == us) = true ∧ Follows e.registry e.clauses goal.functor us := by
  have hsound := sound_runWithin uncalled memo unreserved deadline passes stopEarly ambient
  obtain rfl := answers_of_found unreserved found
  obtain ⟨values, hvalues, rfl⟩ := List.mem_map.1 mem
  obtain ⟨hfollows, θ, rfl, hadmits⟩ := hsound.answers hvalues
  obtain ⟨us, hus, hgoal⟩ := follows_of_query reachable.head_ne uncalled unreserved hfollows
  exact ⟨θ, rfl, hadmits, us, hus, hgoal⟩

/-- The values of a fact that a search finds for a goal that is no built-in follow themselves. -/
theorem follows_of_mem_found (goal : Fact) (reachable : e.Reachable)
    (uncalled : ∀ c ∈ e.clauses, ∀ g ∈ c.body, g.functor ≠ queryFunctor)
    (memo : e.table.memo.Holds (Follows e.registry e.clauses)) (unreserved : goal.functor ≠ queryFunctor)
    (user : e.registry.contains goal.functor goal.arity = false) {deadline : Option Nat}
    {passes : Nat} {stopEarly : Bool} {ambient : Ambient} {facts : List Fact}
    (found : (e.searchWithin deadline passes goal stopEarly ambient).2.found = some facts) {f : Fact}
    (mem : f ∈ facts) :
    ∃ θ, f = Fact.ofLiterals goal.functor (goal.values θ) ∧ goal.Admits θ ∧
      Follows e.registry e.clauses goal.functor (goal.values θ) := by
  obtain ⟨θ, hf, hadmits, us, hus, hfollows⟩ :=
    exists_of_mem_found goal reachable uncalled memo unreserved found mem
  have huser : e.registry.contains goal.functor us.length = false := by
    rwa [← List.length_eq_of_beq hus, Fact.length_values]
  exact ⟨θ, hf, hadmits, hfollows.of_beq huser hus⟩

/-- No two facts that a search finds are equal. -/
theorem pairwise_found (goal : Fact) {deadline : Option Nat} {passes : Nat} {stopEarly : Bool}
    {ambient : Ambient} {facts : List Fact} (unreserved : goal.functor ≠ queryFunctor)
    (found : (e.searchWithin deadline passes goal stopEarly ambient).2.found = some facts) :
    facts.Pairwise fun f g => (f == g) = false := by
  obtain rfl := answers_of_found unreserved found
  rw [List.pairwise_map]
  simp only [Fact.beq_ofLiterals]
  exact Search.Progress.pairwise_answers _ _

/-- What a search finds are instances of the goal that satisfy its conditions and follow from the
clauses of the active table; no two of them are equal. -/
theorem found_sound (reachable : e.Reachable)
    (uncalled : ∀ c ∈ e.clauses, ∀ g ∈ c.body, g.functor ≠ queryFunctor)
    (memo : e.table.memo.Holds (Follows e.registry e.clauses)) {goal : Fact}
    (unreserved : goal.functor ≠ queryFunctor) {deadline : Option Nat} {passes : Nat}
    {stopEarly : Bool} {ambient : Ambient} {facts : List Fact}
    (found : (e.searchWithin deadline passes goal stopEarly ambient).2.found = some facts) :
    facts.Pairwise (fun f g => (f == g) = false) ∧
      ∀ f ∈ facts, f.isGround = true ∧
        ∃ θ, f = Fact.ofLiterals goal.functor (goal.values θ) ∧ goal.Admits θ ∧
          ∃ us, (goal.values θ == us) = true ∧ Follows e.registry e.clauses goal.functor us := by
  refine ⟨pairwise_found goal unreserved found, fun f hf => ?_⟩
  have hexists := exists_of_mem_found goal reachable uncalled memo unreserved found hf
  refine ⟨?_, hexists⟩
  obtain ⟨θ, rfl, -⟩ := hexists
  exact Fact.isGround_ofLiterals _ _

/-- A predicate of one argument at an integer. -/
def unaryAt (functor : String) (value : Int64) : Fact :=
  ⟨functor, [.lit (.integer value)]⟩

/-- A predicate of one argument at a variable. -/
def unaryOpen (functor : String) : Fact :=
  ⟨functor, [.var ⟨.named "X", none⟩]⟩

/-- A fact `p(1)` and a rule `q(X) :- p(X)`, with `q/1` memoized. -/
def oneRule : Engine :=
  after [.assert (unaryAt "p" 1) [], .assert (unaryOpen "q") [unaryOpen "p"], .enableMemo "q/1"]

private theorem reachable_oneRule : oneRule.Reachable :=
  reachableBy_after fun _ _ _ => trivial

private theorem uncalled_oneRule : ∀ c ∈ oneRule.clauses, ∀ g ∈ c.body, g.functor ≠ queryFunctor := by
  decide +kernel

private theorem memo_oneRule : oneRule.table.memo.Holds (Follows oneRule.registry oneRule.clauses) :=
  Memo.holds_of_tries_eq_nil (by with_unfolding_all rfl)

private theorem found_oneRule :
    (oneRule.searchWithin none 9 (unaryOpen "q") false default).2.found = some [unaryAt "q" 1] := by
  rw [found_eq (by decide)]
  with_unfolding_all rfl

theorem found_sound_oneRule :
    [unaryAt "q" 1].Pairwise (fun f g => (f == g) = false) ∧
      ∀ f ∈ [unaryAt "q" 1], f.isGround = true ∧
        ∃ θ, f = Fact.ofLiterals "q" ((unaryOpen "q").values θ) ∧ (unaryOpen "q").Admits θ ∧
          ∃ us, ((unaryOpen "q").values θ == us) = true ∧
            Follows oneRule.registry oneRule.clauses "q" us :=
  found_sound reachable_oneRule uncalled_oneRule memo_oneRule (by decide) found_oneRule

/-- The active table after a search for a goal that is not reserved. -/
private theorem table_searchWithin (active : e.active < e.tables.length) {goal : Fact}
    (unreserved : goal.functor ≠ queryFunctor) (deadline : Option Nat) (passes : Nat)
    (stopEarly : Bool) (ambient : Ambient) :
    (e.searchWithin deadline passes goal stopEarly ambient).1.table =
      ⟨(e.table.program.pushFront (queryClause goal)).popFront,
        (e.runWithin deadline passes goal stopEarly ambient).progress.ledger.memo⟩ := by
  rw [searchWithin, if_neg unreserved]
  exact table_withTable active _

/-- However a search ends, the clauses stay, and what the memo holds afterwards follows from them if
it did before. -/
theorem memo_holds_after_search (reachable : e.Reachable)
    (uncalled : ∀ c ∈ e.clauses, ∀ g ∈ c.body, g.functor ≠ queryFunctor)
    (memo : e.table.memo.Holds (Follows e.registry e.clauses)) (goal : Fact)
    (deadline : Option Nat) (passes : Nat) (stopEarly : Bool) (ambient : Ambient) :
    (e.searchWithin deadline passes goal stopEarly ambient).1.clauses = e.clauses ∧
      (e.searchWithin deadline passes goal stopEarly ambient).1.table.memo.Holds
        (Follows e.registry e.clauses) := by
  by_cases hreserved : goal.functor = queryFunctor
  · rw [searchWithin, if_pos hreserved]
    exact ⟨rfl, memo⟩
  · rw [clauses, table_searchWithin reachable.active_lt hreserved]
    exact ⟨Program.toList_popFront_pushFront _ _,
      (sound_runWithin uncalled memo hreserved deadline passes stopEarly ambient).memo⟩

theorem memo_holds_after_search_oneRule :
    (oneRule.searchWithin none 9 (unaryOpen "q") false default).1.clauses = oneRule.clauses ∧
      (oneRule.searchWithin none 9 (unaryOpen "q") false default).1.table.memo.Holds
        (Follows oneRule.registry oneRule.clauses) :=
  memo_holds_after_search reachable_oneRule uncalled_oneRule memo_oneRule _ _ _ _ _

end Engine

end Horn
