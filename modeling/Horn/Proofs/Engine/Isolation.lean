import Horn.Proofs.Engine.Soundness
import Horn.Proofs.Fact.Key

/-!
The clause of a query stays out of the logic.

While a search runs, the clause of the query is one of the program. As long as no clause of the active
table calls its predicate, which takes the reserved functor at the arity of the goal, it is tried for the
first goal of a solution only, and what is found follows from the clauses of the table alone. Bodies are
not guarded as heads are, though: a body that calls this predicate is answered by the clause of the query.
-/

set_option autoImplicit false
set_option relaxedAutoImplicit false

namespace Horn.Engine

open Builtin (Ambient Registry)

variable {e : Engine} {goal : Fact}

/-- In every state of a run the clause of the query is a candidate for the first goal only. -/
theorem SparesQuery.eq_zero_of_candidate (spares : e.SparesQuery goal)
    (unreserved : goal.functor ≠ queryFunctor) {deadline : Option Nat} {passes : Nat}
    {stopEarly : Bool} {ambient : Ambient} {entry : Nat × Search.Solution}
    (mem : entry ∈ (e.runWithin deadline passes goal stopEarly ambient).progress.opened.toList)
    {position : Nat} {g : Search.Goal} (hg : entry.2[position]? = some g)
    (candidate : queryClause goal ∈ (e.setting goal).program.candidates g.fact.key) : position = 0 := by
  have hstart : ∀ a ∈ (Search.Listing.start ⟨e.table.memo, ambient, 0, .zero⟩
      (goal.withFunctor queryFunctor)).waiting, Search.Isolated (goal.withFunctor queryFunctor) a := by
    intro a ha
    obtain rfl := List.mem_singleton.1 ha
    exact Search.isolated_singleton _ _
  have hisolated : Search.Isolated (goal.withFunctor queryFunctor) entry.2 := by
    refine Search.Listing.isolated_run (spares.basis unreserved).spares hstart stopEarly deadline passes
      _ (List.mem_map_of_mem ?_)
    rw [runWithin_eq, Search.Listing.progress_outcome] at mem
    exact mem
  have hcall : g.fact.IsCallOf (goal.withFunctor queryFunctor) := by
    rw [candidates_setting] at candidate
    have hkey : (queryClause goal).key = g.fact.key := of_decide_eq_true (List.mem_filter.1 candidate).2
    exact predicateKey_inj hkey.symm
  cases position with
  | zero => rfl
  | succ position =>
    refine absurd hcall (hisolated g (List.mem_of_getElem? (i := position) ?_))
    rw [List.getElem?_tail]
    exact hg

/-- What a search finds follows from the clauses of the active table without the clause of the query. -/
theorem SparesQuery.follows_of_found (spares : e.SparesQuery goal) (reachable : e.Reachable)
    (memo : e.table.memo.Holds (Follows e.registry e.clauses)) {deadline : Option Nat} {passes : Nat}
    {stopEarly : Bool} {ambient : Ambient} {facts : List Fact}
    (found : (e.searchWithin deadline passes goal stopEarly ambient).2.found = some facts) :
    ∀ f ∈ facts, ∃ us, (f == Fact.ofLiterals goal.functor us) = true ∧
      Follows e.registry e.clauses goal.functor us := by
  intro f hf
  by_cases reserved : goal.functor = queryFunctor
  · rw [searchWithin, if_pos reserved] at found
    obtain rfl : [] = facts := Option.some.inj found
    exact absurd hf List.not_mem_nil
  · have hsound := spares.sound memo reserved deadline passes stopEarly ambient
    obtain rfl := answers_of_found reserved found
    obtain ⟨values, hvalues, rfl⟩ := List.mem_map.1 hf
    obtain ⟨us, hus, hfollows⟩ := spares.follows reachable.head_ne reserved (hsound.answers hvalues).1
    exact ⟨us, by rwa [Fact.beq_ofLiterals], hfollows⟩

/-- If no clause calls its predicate, the clause of a query is tried for the first goal of a solution at
most, in every state of every search and whatever the memo holds; and what is found follows from the
clauses of the active table alone, if what the memo holds does. -/
theorem query_stays_apart (reachable : e.Reachable) (spares : e.SparesQuery goal) :
    (goal.functor ≠ queryFunctor →
      ∀ (deadline : Option Nat) (passes : Nat) (stopEarly : Bool) (ambient : Ambient),
        ∀ entry ∈ (e.runWithin deadline passes goal stopEarly ambient).progress.opened.toList,
          ∀ (position : Nat) (g : Search.Goal), entry.2[position]? = some g →
            queryClause goal ∈ (e.setting goal).program.candidates g.fact.key → position = 0) ∧
      (e.table.memo.Holds (Follows e.registry e.clauses) →
        ∀ (deadline : Option Nat) (passes : Nat) (stopEarly : Bool) (ambient : Ambient)
          (facts : List Fact),
          (e.searchWithin deadline passes goal stopEarly ambient).2.found = some facts →
            ∀ f ∈ facts, ∃ us, (f == Fact.ofLiterals goal.functor us) = true ∧
              Follows e.registry e.clauses goal.functor us) := by
  constructor
  · intro unreserved _ _ _ _ entry mem position g hg candidate
    exact spares.eq_zero_of_candidate unreserved mem hg candidate
  · intro memo _ _ _ _ facts found
    exact spares.follows_of_found reachable memo found

/-- A fact `q(1)`, and a rule for `q(2)` that calls the reserved functor with two arguments. -/
def callsOther : Engine :=
  after [.assert (unaryAt "q" 1) [],
    .assert (unaryAt "q" 2) [⟨queryFunctor, [.lit (.integer 1), .lit (.integer 2)]⟩]]

theorem query_stays_apart_callsOther :
    (∀ (deadline : Option Nat) (passes : Nat) (stopEarly : Bool) (ambient : Ambient),
      ∀ entry ∈ (callsOther.runWithin deadline passes (unaryOpen "q") stopEarly ambient).progress.opened.toList,
        ∀ (position : Nat) (g : Search.Goal), entry.2[position]? = some g →
          queryClause (unaryOpen "q") ∈ (callsOther.setting (unaryOpen "q")).program.candidates g.fact.key →
            position = 0) ∧
      ∀ f ∈ [unaryAt "q" 1], ∃ us, (f == Fact.ofLiterals "q" us) = true ∧
        Follows callsOther.registry callsOther.clauses "q" us := by
  have hreachable : callsOther.Reachable := reachableBy_after fun _ _ _ => trivial
  have hspares : callsOther.SparesQuery (unaryOpen "q") := by decide +kernel
  have hmemo : callsOther.table.memo.Holds (Follows callsOther.registry callsOther.clauses) :=
    Memo.holds_of_tries_eq_nil (by with_unfolding_all rfl)
  have hfound : (callsOther.searchWithin none 9 (unaryOpen "q") false default).2.found =
      some [unaryAt "q" 1] := by
    rw [found_eq (by decide)]
    with_unfolding_all rfl
  have happart := query_stays_apart hreachable hspares
  exact ⟨happart.1 (by decide), happart.2 hmemo _ _ _ _ _ hfound⟩

/-- A fact `q(1)`, and a rule for `q(2)` that calls the reserved functor with one argument. -/
def callsQuery : Engine :=
  after [.assert (unaryAt "q" 1) [], .assert (unaryAt "q" 2) [unaryAt queryFunctor 1]]

/-- A body may call the predicate of the query: a search for `q(X)` answers this call by itself and finds
`q(2)`, which no clause of the table yields. -/
theorem exists_found_by_query :
    ¬ ∀ (e : Engine) (goal : Fact), e.Reachable → e.table.memo.tries = [] →
      ∀ (deadline : Option Nat) (passes : Nat) (stopEarly : Bool) (ambient : Ambient)
        (facts : List Fact),
        (e.searchWithin deadline passes goal stopEarly ambient).2.found = some facts →
          ∀ f ∈ facts, ∃ us, (f == Fact.ofLiterals goal.functor us) = true ∧
            Follows e.registry e.clauses goal.functor us := by
  intro h
  have hfound : (callsQuery.searchWithin none 9 (unaryOpen "q") false default).2.found =
      some [unaryAt "q" 1, unaryAt "q" 2] := by
    rw [found_eq (by decide)]
    with_unfolding_all rfl
  obtain ⟨us, hus, hfollows⟩ := h callsQuery (unaryOpen "q") (reachableBy_after fun _ _ _ => trivial)
    (by with_unfolding_all rfl) _ _ _ _ _ hfound (unaryAt "q" 2) (by simp)
  have htwo : ([Literal.integer 2] == us) = true := by
    rwa [← Fact.beq_ofLiterals "q"]
  have hclauses : callsQuery.clauses =
      [.once (unaryAt "q" 1) [], .once (unaryAt "q" 2) [unaryAt queryFunctor 1]] := by
    with_unfolding_all rfl
  rw [hclauses] at hfollows
  obtain ⟨c, hc, θ, -, -, hbody, hvalues⟩ :=
    hfollows.exists_clause (Registry.contains_eq_false (by decide) _ _)
  rcases List.mem_cons.1 hc with rfl | hc
  · have hdiffer : ([Literal.integer 2] == [Literal.integer 1]) = true := BEq.trans htwo hvalues
    exact absurd hdiffer (by decide)
  · -- The call of the reserved functor would have to follow from a clause with such a head.
    obtain rfl := List.mem_singleton.1 hc
    obtain ⟨d, hd, _, -, hfunctor, -⟩ := (hbody _ (List.mem_singleton.2 rfl)).exists_clause
      (Registry.contains_queryFunctor _ _)
    simp only [List.mem_cons, List.not_mem_nil, or_false] at hd
    rcases hd with rfl | rfl <;> exact absurd hfunctor (by decide)

end Horn.Engine
