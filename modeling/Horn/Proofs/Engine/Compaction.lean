import Horn.Proofs.Engine.Descendants
import Horn.Proofs.Search.Compaction

/-!
What the solutions of a search keep.

`Engine.compaction_keeps_needed` says which goals are left of all that were ever put into a solution: the one
of the query, the open ones, and the memoized ones below which a goal is open. A memoized goal that was
overtaken may stay although everything below it is proven: `Engine.exists_kept_not_needed`.
-/

set_option autoImplicit false
set_option relaxedAutoImplicit false

namespace Horn.Engine

open Builtin (Ambient)
open Search (Located Lineage Listed Listing Overtaken)

variable {e : Engine} {goal : Fact} {deadline : Option Nat} {passes : Nat} {stopEarly : Bool}
  {ambient : Ambient}

/-- In a run, the solutions with open goals wait, and the others are finished. -/
theorem isFiled_listing :
    (e.listing deadline passes goal stopEarly ambient).2.IsFiled := by
  refine Listing.IsFiled.run ⟨?_, fun a ha => absurd ha List.not_mem_nil⟩ passes
  intro a ha
  rw [List.mem_singleton.1 ha]
  rfl

theorem hasPending_of_opened {solution : Search.Solution}
    (mem : solution ∈ (e.runWithin deadline passes goal stopEarly ambient).progress.opened.toList.map
      Prod.snd) : Search.hasPending solution = true := by
  rw [runWithin_eq, Listing.progress_outcome] at mem
  exact isFiled_listing.waiting _ mem

/-- A finished solution is made up of the query alone, which is ground. -/
theorem exists_query_of_finished {solution : Search.Solution}
    (mem : solution ∈ (e.runWithin deadline passes goal stopEarly ambient).progress.finished) :
    ∃ query, solution = [query] ∧ query.resolved = true ∧ query.fact.isGround = true := by
  obtain ⟨steps, all, kept, hlineage, rfl⟩ := hasLineage_of_mem_solution (.inr mem)
  rw [runWithin_eq, Listing.progress_outcome] at mem
  have hclosed : Search.hasPending (kept.map Located.goal) = false := isFiled_listing.finished _ mem
  have hlength := (hlineage.hasPending_eq_false_iff (hlineage.steps_ne_nil hclosed)).1 hclosed
  have hanswer := hlineage.isAnswer hclosed
  obtain ⟨query, rfl⟩ := List.length_eq_one_iff.1 hlength
  refine ⟨query.goal, rfl, ?_, ?_⟩
  · simpa [Search.hasPending] using hclosed
  · simpa [Search.isAnswer] using hanswer

/-- In every solution of a search that is open or finished, once the query is expanded: the discharged query
comes first; the open goals are all that are open, in the order in which they were put there; any other
discharged goal is of a memoized predicate and has an open goal in its run of deeper goals; what is needed is
kept, and what is kept is needed if it was not overtaken; and the solution is finished exactly when the query
is alone, which is ground then. -/
theorem compaction_keeps_needed (e : Engine) (goal : Fact) (deadline : Option Nat) (passes : Nat)
    (stopEarly : Bool) (ambient : Ambient) :
    let s := e.setting goal
    let memoized := e.table.memo.isEnabled
    let root := goal.withFunctor queryFunctor
    let p := (e.runWithin deadline passes goal stopEarly ambient).progress
    (∀ solution ∈ p.opened.toList.map Prod.snd,
      Search.HasLineage s memoized root solution ∧ Search.hasPending solution = true) ∧
    (∀ solution ∈ p.finished, Search.HasLineage s memoized root solution ∧
      ∃ query, solution = [query] ∧ query.resolved = true ∧ query.fact.isGround = true) ∧
    ∀ steps all kept, Lineage s memoized root steps all kept → steps ≠ [] →
      (∃ query goals, kept = query :: goals ∧ query.path = [] ∧ query.goal.resolved = true ∧
        query.goal.fact.functor = queryFunctor ∧ query.goal.fact.arity = goal.arity) ∧
      (kept.Sublist all ∧ all.Pairwise (fun g d => g.path < d.path) ∧
        kept.filter Located.isOpen = all.filter Located.isOpen) ∧
      (∀ before g behind, kept = before ++ g :: behind → before ≠ [] → g.isOpen = false →
        memoized g.goal.key = true ∧
          Search.pendingBelow g.goal.depth (behind.map Located.goal) = true) ∧
      ((∀ d ∈ all, d.IsNeeded memoized all → d ∈ kept) ∧
        (∀ d ∈ kept, ¬ Overtaken s steps d → d.IsNeeded memoized all) ∧
        ((∀ d ∈ kept, ¬ Overtaken s steps d) → kept = all.filter fun d => d.IsNeeded memoized all) ∧
        (e.IsUser → e.registry.contains goal.functor goal.arity = false → ∀ g, ¬ Overtaken s steps g)) ∧
      (Search.hasPending (kept.map Located.goal) = false ↔ kept.length = 1) ∧
      (Search.hasPending (kept.map Located.goal) = false →
        Search.isAnswer (kept.map Located.goal) = true) := by
  intro s memoized root p
  refine ⟨fun solution mem => ⟨hasLineage_of_mem_solution (.inl mem), hasPending_of_opened mem⟩,
    fun solution mem => ⟨hasLineage_of_mem_solution (.inr mem), exists_query_of_finished mem⟩, ?_⟩
  intro steps all kept lineage begun
  refine ⟨?_, ⟨lineage.keeps.sublist, lineage.keeps.inTree.sorted, lineage.keeps.opened⟩, ?_,
    ⟨lineage.mem_kept, fun d => lineage.isNeeded, lineage.kept_eq_filter, fun user goalUser g => ?_⟩,
    lineage.hasPending_eq_false_iff begun, lineage.isAnswer⟩
  · obtain ⟨query, goals, hkept, hpath, ⟨hfunctor, harity⟩, hopen⟩ := lineage.exists_query
    have hclosed : query.isOpen = false := Bool.eq_false_iff.2 (mt hopen.1 begun)
    exact ⟨query, goals, hkept, hpath, by simpa [Located.isOpen] using hclosed, hfunctor, harity⟩
  · intro before g behind hkept first closed
    exact Bool.and_eq_true_iff.1 (lineage.isAwaited hkept first closed)
  · exact (Listed.kept lineage).not_overtaken (Builtin.Registry.contains_queryFunctor _ _)
      (user.called goalUser)

/-- When `m(X)` is discharged it is needed, since the built-in below it is open, and with the query and the
open goals it is all that is kept; the goal `main(X)` is dropped. -/
theorem compaction_keeps_needed_overtaking :
    (∃ steps all query g behind, Lineage (overtaking.setting (unaryOpen "main"))
        overtaking.table.memo.isEnabled (unaryOpen queryFunctor) steps all (query :: g :: behind) ∧
      steps ≠ [] ∧ (∀ d ∈ query :: g :: behind, ¬ Overtaken (overtaking.setting (unaryOpen "main")) steps d) ∧
      all.map (·.goal.fact.functor) = [queryFunctor, "main", "m", "as_string", "n"] ∧
      g.goal.fact.functor = "m" ∧ g.isOpen = false ∧
      (Search.pendingBelow g.goal.depth (behind.map Located.goal) = true ∧
        g.IsNeeded overtaking.table.memo.isEnabled all) ∧
      query :: g :: behind = all.filter fun d => d.IsNeeded overtaking.table.memo.isEnabled all) ∧
    ∃ steps all kept, Lineage (oneRule.setting (unaryOpen "q")) oneRule.table.memo.isEnabled
        (unaryOpen queryFunctor) steps all kept ∧ steps.length = 2 ∧
      ∀ g, ¬ Overtaken (oneRule.setting (unaryOpen "q")) steps g := by
  constructor
  · obtain ⟨steps, all, query, g, behind, hsteps, hcheck⟩ := overtaking.exists_stepsOn "main" 3
      (fun steps query g behind => decide (steps.length = 3 ∧
        (∀ d ∈ query :: g :: behind, ¬ Overtaken (overtaking.setting (unaryOpen "main")) steps d) ∧
        g.goal.fact.functor = "m" ∧ g.isOpen = false))
      (by decide +kernel)
    obtain ⟨hlength, hfree, hfunctor, hclosed⟩ := of_decide_eq_true hcheck
    have hall : (overtaking.stepsOn "main" 3).map (fun r => r.2.1.map (·.goal.fact.functor)) =
        some [queryFunctor, "main", "m", "as_string", "n"] := by decide +kernel
    rw [hsteps] at hall
    have hlineage := lineage_stepsOn hsteps
    have hbegun : steps ≠ [] := List.ne_nil_of_length_eq_add_one hlength
    obtain ⟨-, -, hkept⟩ := compaction_keeps_needed overtaking (unaryOpen "main") none 4 false default
    obtain ⟨-, -, hawaited, ⟨-, hneeded, hfilter, -⟩, -⟩ := hkept _ _ _ hlineage hbegun
    exact ⟨steps, all, query, g, behind, hlineage, hbegun, hfree, Option.some.inj hall, hfunctor, hclosed,
      ⟨(hawaited [query] g behind rfl (by simp) hclosed).2, hneeded g (by simp) (hfree g (by simp))⟩,
      hfilter hfree⟩
  · obtain ⟨steps, all, query, g, behind, hsteps, hcheck⟩ := oneRule.exists_stepsOn "q" 2
      (fun steps _ _ _ => decide (steps.length = 2)) (by decide +kernel)
    have hlength : steps.length = 2 := of_decide_eq_true hcheck
    have hbegun : steps ≠ [] := List.ne_nil_of_length_eq_add_one hlength
    obtain ⟨-, -, hkept⟩ := compaction_keeps_needed oneRule (unaryOpen "q") none 4 false default
    obtain ⟨-, -, -, ⟨-, -, -, hfree⟩, -⟩ := hkept _ _ _ (lineage_stepsOn hsteps) hbegun
    exact ⟨steps, all, _, lineage_stepsOn hsteps, hlength, hfree (by decide +kernel) (by decide +kernel)⟩

/-- The rules of `overtaking` and, beside them, rules `main(X) :- k(X), n(X)` and `k(X) :- as_string(X, S)`,
where `k/1` is not memoized. -/
def overtakingTwice : Engine :=
  after [.assert (unaryOpen "m") [asText], .assert (unaryOpen "k") [asText],
    .assert (unaryAt "n" 1) [unaryAt "r" 5], .assert (unaryAt "r" 6) [],
    .assert (unaryOpen "main") [unaryOpen "m", unaryOpen "n"],
    .assert (unaryOpen "main") [unaryOpen "k", unaryOpen "n"], .enableMemo "m/1"]

/-- The goal `m(1)` is kept although no goal below it is open any more, so its solution does not look like the
other one, in which `k(1)` was dropped, and both are expanded. -/
theorem exists_kept_not_needed :
    ∃ steps all query g behind, Lineage (overtakingTwice.setting (unaryOpen "main"))
        overtakingTwice.table.memo.isEnabled (unaryOpen queryFunctor) steps all (query :: g :: behind) ∧
      steps ≠ [] ∧ g.goal.fact.functor = "m" ∧ g.isOpen = false ∧
      (∀ d ∈ all, d.isOpen = true → ¬ d.DescendsFrom g) ∧
      (overtakingTwice.runWithin none 8 (unaryOpen "main") false default).progress.opened.toList.map
        Prod.snd = [(query :: g :: behind).map Located.goal, (query :: behind).map Located.goal] := by
  obtain ⟨steps, all, query, g, behind, hsteps, hcheck⟩ := overtakingTwice.exists_stepsOn "main" 5
    (fun steps query g behind => decide (steps.length = 5 ∧ g.goal.fact.functor = "m" ∧ g.isOpen = false ∧
      ∀ d ∈ query :: g :: behind, d.isOpen = true → ¬ d.DescendsFrom g))
    (by decide +kernel)
  obtain ⟨hlength, hfunctor, hclosed, hapart⟩ := of_decide_eq_true hcheck
  have hlineage := lineage_stepsOn hsteps
  have hbegun : steps ≠ [] := List.ne_nil_of_length_eq_add_one hlength
  refine ⟨steps, all, query, g, behind, hlineage, hbegun, hfunctor, hclosed,
    fun d hd hopen => hapart d (hlineage.keeps.mem_kept hd hopen) hopen, ?_⟩
  have hopened : (overtakingTwice.stepsOn "main" 5).map
        (fun r => [r.2.2.map Located.goal, (r.2.2.eraseIdx 1).map Located.goal]) =
      some ((overtakingTwice.runWithin none 8 (unaryOpen "main") false default).progress.opened.toList.map
        Prod.snd) := by
    rw [runWithin_eq, Listing.progress_outcome]
    with_unfolding_all rfl
  rw [hsteps] at hopened
  exact (Option.some.inj hopened).symm

end Horn.Engine
