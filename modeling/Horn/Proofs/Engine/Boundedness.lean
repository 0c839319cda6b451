import Horn.Proofs.Engine.Completeness
import Horn.Proofs.Search.Finiteness
import Horn.Proofs.Search.Pruning

/-!
Searches on programs without built-ins and memo end as long as their solutions do not grow.

Clauses may recurse and call each other in cycles: a search whose open solutions never have more than a
bounded number of goals comes to its end, since it leaves out solutions that look like earlier ones.
-/

set_option autoImplicit false
set_option relaxedAutoImplicit false

namespace Horn.Engine

open Builtin (Ambient)
open Search (Listing)

variable {e : Engine} {goal : Fact}

/-- The facts that the solutions of a search are made of. -/
private def sources (e : Engine) (goal : Fact) : List Fact :=
  (queryClause goal :: e.clauses).flatMap Clause.facts

private theorem callsUser (user : e.IsUser)
    (goalUser : e.registry.contains goal.functor goal.arity = false) :
    Search.CallsUser (e.setting goal) (sources e goal) := by
  constructor
  · intro key c hc f hf
    rw [candidates_setting] at hc
    exact List.mem_flatMap.2 ⟨c, (List.mem_filter.1 hc).1, hf⟩
  · exact user.called goalUser

/-- Without memo and built-ins, a search whose open solutions have a bounded number of goals empties
its queue, and there is one number of passes that suffices for all such searches for a goal. -/
theorem exhausted_of_short (goal : Fact) (unmemoized : e.table.memo.enabled = []) (user : e.IsUser)
    (goalUser : e.registry.contains goal.functor goal.arity = false) (bound : Nat) :
    ∃ enough, ∀ (stopEarly : Bool) (ambient : Ambient),
      (∀ passes, ∀ solution ∈ (e.runWithin none passes goal stopEarly ambient).progress.waiting,
        solution.length ≤ bound) →
      ∀ passes, enough ≤ passes → ∃ p,
        e.runWithin none passes goal stopEarly ambient = .exhausted p ∧
          (stopEarly = false → p.waiting = []) := by
  obtain ⟨enough, henough⟩ := Listing.exists_ended_of_short (callsUser user goalUser) bound
  refine ⟨enough, fun stopEarly ambient short passes le => ?_⟩
  let start : Listing := .start ⟨e.table.memo, ambient, 0, .zero⟩ (goal.withFunctor queryFunctor)
  have hunlike : Listing.Unlike [] start := by
    refine ⟨List.pairwise_singleton _ _, fun a ha => ?_⟩
    exact ha
  have hfacts : Listing.OfFacts (e.setting goal) (sources e goal) start := by
    refine ⟨unmemoized, fun a ha => ?_⟩
    obtain rfl := List.mem_singleton.1 ha
    intro g hg
    obtain rfl := List.mem_singleton.1 hg
    refine ⟨.of_mem (List.mem_flatMap.2 ⟨queryClause goal, List.mem_cons_self, List.mem_cons_self⟩), ?_⟩
    exact Builtin.Registry.contains_queryFunctor _ _
  have hshort (passes : Nat) : ∀ a ∈ (Listing.run (e.setting goal) stopEarly none passes start).2.waiting,
      a.length ≤ bound := by
    have hpasses := short passes
    rw [runWithin_eq, Listing.progress_outcome] at hpasses
    exact hpasses
  have hended := Listing.run_of_le (Prod.ext (henough stopEarly start hunlike hfacts hshort) rfl) le
  refine ⟨_, by rw [runWithin_eq, listing, hended]; rfl, fun hall => ?_⟩
  subst hall
  exact Listing.waiting_eq_nil (Listing.next?_of_ended hended)

private def pathsFrom (n : Int64) : Fact :=
  ⟨"path", [.lit (.integer n), .var ⟨.named "X", none⟩]⟩

/-- The paths along two edges that form a cycle, from one of them. -/
theorem exhausted_of_short_cycle :
    (∀ passes, ∀ solution ∈ (cycle.runWithin none passes (pathsFrom 1) false default).progress.waiting,
      solution.length ≤ 3) ∧
      ∃ enough, ∀ passes, enough ≤ passes → ∃ p,
        cycle.runWithin none passes (pathsFrom 1) false default = .exhausted p ∧ p.waiting = [] := by
  have hfew : ∀ passes < 31,
      ((cycle.listing none passes (pathsFrom 1) false default).2.waiting.all (·.length ≤ 3)) = true := by
    decide +kernel
  have hended : (cycle.listing none 30 (pathsFrom 1) false default).1 = true := by
    decide +kernel
  have hshort : ∀ passes, ∀ solution ∈
      (cycle.runWithin none passes (pathsFrom 1) false default).progress.waiting,
      solution.length ≤ 3 := by
    intro passes solution hsolution
    rw [runWithin_eq, Listing.progress_outcome] at hsolution
    rcases Nat.lt_or_ge passes 31 with hlt | hge
    · simpa using List.all_eq_true.1 (hfew passes hlt) solution hsolution
    · rw [listing, Listing.run_of_le (Prod.ext hended rfl) (Nat.le_of_succ_le hge)] at hsolution
      simpa using List.all_eq_true.1 (hfew 30 (by decide)) solution hsolution
  refine ⟨hshort, ?_⟩
  obtain ⟨enough, henough⟩ := exhausted_of_short (e := cycle) (pathsFrom 1)
    (by with_unfolding_all rfl) (by decide +kernel) (by decide +kernel) 3
  refine ⟨enough, fun passes le => ?_⟩
  obtain ⟨p, hp, hempty⟩ := henough false default hshort passes le
  exact ⟨p, hp, hempty rfl⟩

end Horn.Engine
