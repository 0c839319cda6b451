import Horn.Proofs.Engine.Pruning
import Horn.Proofs.Search.EarlyExit
import Horn.Proofs.Search.Simulation

/-!
Searches of an engine that need one answer only.

Such a search returns the first answer of the search for all, in no more iterations; and once a first
solution is finished it expands no more solutions than were open at that moment.
-/

set_option autoImplicit false
set_option relaxedAutoImplicit false

namespace Horn.Engine

open Builtin (Ambient)
open Search (Listing)

variable {e : Engine} {goal : Fact}

/-- The built-ins that a search calls are those that the clauses of its setting call. -/
theorem CallsDeterministic.callsCalm (h : e.CallsDeterministic goal) :
    Search.CallsCalm (e.setting goal) := by
  intro key c hc f hf
  rw [candidates_setting] at hc
  exact h c (List.mem_filter.1 hc).1 f hf

/-- The predicate of queries is no built-in. -/
theorem calm_query (e : Engine) (goal : Fact) :
    Search.Calm (e.setting goal) [.pending 0 (goal.withFunctor queryFunctor)] := by
  intro g hg hbuiltin
  obtain rfl := List.mem_singleton.1 hg
  exact absurd ((Builtin.Registry.contains_queryFunctor _ _).symm.trans hbuiltin) (by simp)

/-- With deterministic built-ins a search does the same in every ambient. -/
theorem CallsDeterministic.alike (h : e.CallsDeterministic goal) (passes : Nat) (stopEarly : Bool)
    (ambient ambient' : Ambient) :
    (e.listing none passes goal stopEarly ambient).1 =
        (e.listing none passes goal stopEarly ambient').1 ∧
      Listing.Alike (fun _ a b => a = b ∧ Search.Calm (e.setting goal) a)
        (e.listing none passes goal stopEarly ambient).2
        (e.listing none passes goal stopEarly ambient').2 := by
  have hsim := Search.simulation_calm h.callsCalm
  have hledger : Search.Ledger.Agrees ⟨e.table.memo, ambient, 0, .zero⟩
      ⟨e.table.memo, ambient', 0, .zero⟩ :=
    ⟨rfl, rfl, rfl⟩
  exact (Listing.alike_start hsim hledger ⟨rfl, calm_query e goal⟩).run hsim stopEarly passes

/-- The iterations that a search leaves in the counters of the engine. -/
theorem iterations_searchWithin {passes : Nat} {stopEarly : Bool} {ambient : Ambient}
    (unreserved : goal.functor ≠ queryFunctor) :
    (e.searchWithin none passes goal stopEarly ambient).1.lastStats.iterations =
      (e.listing none passes goal stopEarly ambient).2.base.ledger.stats.iterations := by
  rw [searchWithin_fst unreserved]

/-- With deterministic built-ins, a search for one answer comes to its end if the search for all does, in
no more iterations, and finds the first of them. -/
private theorem found_take_one (deterministic : e.CallsDeterministic goal) {passes : Nat}
    {ambient ambient' : Ambient} {facts : List Fact}
    (found : (e.searchWithin none passes goal false ambient).2.found = some facts) :
    (e.searchWithin none passes goal true ambient').2.found = some (facts.take 1) ∧
      (e.searchWithin none passes goal true ambient').1.lastStats.iterations ≤
        (e.searchWithin none passes goal false ambient).1.lastStats.iterations := by
  by_cases reserved : goal.functor = queryFunctor
  · rw [searchWithin, if_pos reserved] at found ⊢
    obtain rfl : [] = facts := Option.some.inj found
    rw [searchWithin, if_pos reserved]
    exact ⟨rfl, Nat.le_refl _⟩
  · obtain ⟨hends, halike⟩ := deterministic.alike passes false ambient ambient'
    rw [iterations_searchWithin reserved, iterations_searchWithin reserved, halike.ledger.stats]
    rw [found_eq reserved, listed?_eq_some_iff] at found
    obtain ⟨hended, rfl⟩ := found
    rw [found_eq reserved, listed?_eq_some_iff]
    rw [halike.answers_eq]
    obtain ⟨q, hearly, hle, hq⟩ :=
      Listing.run_early (e.setting goal) (Prod.ext (hends.symm.trans hended) rfl)
    have hanswered (stopEarly : Bool) : Listing.Answered
        (e.listing none passes goal stopEarly ambient').2 :=
      (Listing.answered_start _ _).run _ _ _
    have hfirst := hanswered true
    rw [listing, hearly] at hfirst ⊢
    refine ⟨⟨rfl, ?_⟩, hle⟩
    rw [Listing.answers_early (hanswered false) hfirst hq, List.map_take]

/-- A search for one answer finds the first answer of the search for all, in no more iterations. Once a
first solution is finished, it expands no more solutions than were open at that moment, and ends. -/
theorem found_early (goal : Fact) :
    (e.CallsDeterministic goal →
      ∀ (passes : Nat) (ambient ambient' : Ambient) (facts : List Fact),
        (e.searchWithin none passes goal false ambient).2.found = some facts →
          (e.searchWithin none passes goal true ambient').2.found = some (facts.take 1) ∧
            (e.searchWithin none passes goal true ambient').1.lastStats.iterations ≤
              (e.searchWithin none passes goal false ambient).1.lastStats.iterations) ∧
      ∀ (passes : Nat) (ambient : Ambient),
        (e.runWithin none passes goal true ambient).progress.firstFinished ≠ none →
          ∃ before < passes, ∃ moment,
            Search.FinishesFirst (e.setting goal)
                (e.runWithin none before goal true ambient).progress moment ∧
              ∀ more, before + moment.opened.toList.length + 2 ≤ more →
                ∃ p, e.runWithin none more goal true ambient = .exhausted p ∧
                  p.ledger.stats.iterations ≤
                    (e.runWithin none before goal true
                      ambient).progress.ledger.stats.iterations + 1 +
                        moment.opened.toList.length := by
  refine ⟨fun deterministic passes ambient ambient' facts => found_take_one deterministic,
    fun passes ambient finished => ?_⟩
  rw [runWithin_eq, Listing.progress_outcome] at finished
  obtain ⟨before, hlt, moment, hfirst, hends⟩ := Listing.exists_moment rfl finished
  refine ⟨before, hlt, moment.progress, ?_, fun more hmore => ?_⟩
  · rw [runWithin_eq, Listing.progress_outcome]
    exact hfirst
  · obtain ⟨q, hended, hle⟩ := hends more hmore
    refine ⟨q.progress, ?_, ?_⟩
    · rw [runWithin_eq, listing, hended]
      rfl
    · rw [runWithin_eq, Listing.progress_outcome]
      exact hle

/-- A fact `p(1)`, and a rule by which `p` calls itself twice, so that solutions grow without end. -/
def breeding : Engine :=
  after [.assert (unaryAt "p" 1) [],
    .assert (unaryOpen "p") [⟨"p", [.var ⟨.named "Y", none⟩]⟩, unaryOpen "p"]]

theorem found_early_breeding :
    ((twoWays.searchWithin none 20 (unaryOpen "s") false default).2.found =
        some [⟨"s", [.lit (.text "integer")]⟩] ∧
      (twoWays.searchWithin none 20 (unaryOpen "s") true ⟨[], 7, 5⟩).2.found =
        some [⟨"s", [.lit (.text "integer")]⟩]) ∧
      (breeding.runWithin none 2 (unaryOpen "p") true default).progress.firstFinished ≠ none ∧
      ∃ before < 2, ∃ moment,
        Search.FinishesFirst (breeding.setting (unaryOpen "p"))
            (breeding.runWithin none before (unaryOpen "p") true default).progress moment ∧
          ∀ more, before + moment.opened.toList.length + 2 ≤ more →
            ∃ p, breeding.runWithin none more (unaryOpen "p") true default = .exhausted p ∧
              p.ledger.stats.iterations ≤
                (breeding.runWithin none before (unaryOpen "p") true
                  default).progress.ledger.stats.iterations + 1 + moment.opened.toList.length := by
  have hfound : (twoWays.searchWithin none 20 (unaryOpen "s") false default).2.found =
      some [⟨"s", [.lit (.text "integer")]⟩] := by
    rw [found_eq (by decide)]
    with_unfolding_all rfl
  have hfinished : (breeding.runWithin none 2 (unaryOpen "p") true default).progress.firstFinished ≠
      none := by
    rw [runWithin_eq, Listing.progress_outcome]
    decide +kernel
  have hearly := (found_early (e := twoWays) (unaryOpen "s")).1
    (callsDeterministic_of_ne (by decide +kernel)) 20 default ⟨[], 7, 5⟩ _ hfound
  exact ⟨⟨hfound, hearly.1⟩, hfinished,
    (found_early (e := breeding) (unaryOpen "p")).2 2 default hfinished⟩

end Horn.Engine
