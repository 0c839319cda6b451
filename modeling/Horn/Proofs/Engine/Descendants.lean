import Horn.Proofs.Engine.Completeness
import Horn.Proofs.Search.Descendants

/-!
Depths and descent in the searches of an engine.

Every solution of a search has a lineage, which tells the goals that descend from a goal. They start the run
of deeper goals behind it, and are all of it if the goal was not overtaken while a built-in below it waited:
`Engine.runs_delimit_descendants`. A goal that was overtaken may see goals of others in its run:
`Engine.exists_deeper_not_descending`.
-/

set_option autoImplicit false
set_option relaxedAutoImplicit false

namespace Horn.Engine

open Builtin (Ambient)
open Search (Located Lineage Listed Listing Overtaken Step)

variable {e : Engine} {goal : Fact} {deadline : Option Nat} {passes : Nat} {stopEarly : Bool}
  {ambient : Ambient}

/-- The solutions that are open or finished in a run have lineages. -/
theorem hasLineage_of_mem_solution {solution : Search.Solution}
    (mem : solution ∈ (e.runWithin deadline passes goal stopEarly ambient).progress.opened.toList.map
        Prod.snd ∨
      solution ∈ (e.runWithin deadline passes goal stopEarly ambient).progress.finished) :
    Search.HasLineage (e.setting goal) e.table.memo.isEnabled (goal.withFunctor queryFunctor) solution := by
  have hstart : ∀ a ∈ (Listing.start ⟨e.table.memo, ambient, 0, .zero⟩
      (goal.withFunctor queryFunctor)).standing,
      Search.HasLineage (e.setting goal) e.table.memo.isEnabled (goal.withFunctor queryFunctor) a := by
    intro a ha
    obtain rfl := List.mem_singleton.1 ha
    exact ⟨_, _, _, .start, rfl⟩
  rw [runWithin_eq, Listing.progress_outcome] at mem
  exact Listing.hasLineage_run rfl hstart stopEarly deadline passes solution (List.mem_append.2 mem)

/-- The goal `as_string(X, S)`. -/
def asText : Fact :=
  ⟨"as_string", [.var ⟨.named "X", none⟩, .var ⟨.named "S", none⟩]⟩

/-- Rules `main(X) :- m(X), n(X)` and `m(X) :- as_string(X, S)`, with `m/1` memoized; a rule `n(1) :- r(5)`;
and a fact `r(6)`. In a search for `main(X)` the built-in waits until `n(X)` is expanded. -/
def overtaking : Engine :=
  after [.assert (unaryOpen "m") [asText], .assert (unaryAt "n" 1) [unaryAt "r" 5],
    .assert (unaryAt "r" 6) [], .assert (unaryOpen "main") [unaryOpen "m", unaryOpen "n"],
    .enableMemo "m/1"]

/-- A search for a predicate at a variable, so many steps on, each of them with the first clause. -/
def stepsOn (e : Engine) (functor : String) (length : Nat) :
    Option (List Step × List Located × List Located) :=
  Search.follow (e.setting (unaryOpen functor)) ⟨e.table.memo, default, 0, .zero⟩ (List.replicate length 0) []
    [.query (unaryOpen queryFunctor)] [.query (unaryOpen queryFunctor)]

theorem lineage_stepsOn {functor : String} {length : Nat} {steps : List Step} {all kept : List Located}
    (h : e.stepsOn functor length = some (steps, all, kept)) :
    Lineage (e.setting (unaryOpen functor)) e.table.memo.isEnabled (unaryOpen queryFunctor) steps all kept :=
  Lineage.start.follow rfl h

/-- If a check of the goal behind the query succeeds so many steps on, this is how the search goes on. -/
theorem exists_stepsOn (e : Engine) (functor : String) (length : Nat)
    (check : List Step → Located → Located → List Located → Bool)
    (checked : (e.stepsOn functor length).any (fun r =>
      match r.2.2 with
      | query :: g :: behind => check r.1 query g behind
      | _ => false) = true) :
    ∃ steps all query g behind, e.stepsOn functor length = some (steps, all, query :: g :: behind) ∧
      check steps query g behind = true := by
  obtain ⟨⟨steps, all, kept⟩, hsteps, hcheck⟩ := (Option.any_eq_true _ _).1 checked
  match kept, hcheck with
  | query :: g :: behind, hcheck => exact ⟨steps, all, query, g, behind, hsteps, hcheck⟩

/-- In a search of an engine, before and after compaction, the goals that descend from a goal are the start
of the run of deeper goals behind it, so an open one among them is seen. If the goal was not overtaken, they
are the whole run, and it has an open goal exactly if one of them is open. When a goal is overtaken, only
built-ins are open there and below, so none is overtaken if no clause calls a built-in. -/
theorem runs_delimit_descendants (e : Engine) (goal : Fact) (deadline : Option Nat) (passes : Nat)
    (stopEarly : Bool) (ambient : Ambient) :
    let s := e.setting goal
    let memoized := e.table.memo.isEnabled
    let root := goal.withFunctor queryFunctor
    let p := (e.runWithin deadline passes goal stopEarly ambient).progress
    (∀ solution, solution ∈ p.opened.toList.map Prod.snd ∨ solution ∈ p.finished →
      Search.HasLineage s memoized root solution) ∧
    (∀ steps goals, Listed s memoized root steps goals →
      ∀ before g behind, goals = before ++ g :: behind →
        g.descendants goals <+: g.deeperRun behind ∧
        ((∃ d ∈ goals, d.isOpen = true ∧ d.DescendsFrom g) →
          Search.pendingBelow g.goal.depth (behind.map Located.goal) = true) ∧
        (¬ Overtaken s steps g →
          g.deeperRun behind = g.descendants goals ∧
          (Search.pendingBelow g.goal.depth (behind.map Located.goal) = true ↔
            ∃ d ∈ goals, d.isOpen = true ∧ d.DescendsFrom g))) ∧
    (∀ steps goals, Listed s memoized root steps goals → ∀ step ∈ steps, ∀ g, step.Overtakes s g →
      ∀ d ∈ step.kept, d.isOpen = true → g.path <+: d.path → s.isBuiltin d.goal.fact = true) ∧
    (e.IsUser → e.registry.contains goal.functor goal.arity = false →
      ∀ steps goals, Listed s memoized root steps goals → ∀ g, ¬ Overtaken s steps g) := by
  intro s memoized root p
  refine ⟨fun solution mem => hasLineage_of_mem_solution mem, ?_, ?_, ?_⟩
  · rintro steps goals listed before g behind rfl
    have htree := listed.inTree
    refine ⟨htree.descendants_prefix, ?_, fun free => ?_⟩
    · rintro ⟨d, hd, hopen, hdescends⟩
      exact htree.pendingBelow_of_descendsFrom hd hdescends hopen
    · have hexact := listed.isAside.deeperRun_eq htree free
      exact ⟨hexact, Search.pendingBelow_iff hexact⟩
  · intro steps goals listed step mem g overtakes d hd opened hunder
    exact listed.isBuiltin_of_overtakes mem overtakes hd opened hunder
  · intro user goalUser steps goals listed g
    exact listed.not_overtaken (Builtin.Registry.contains_queryFunctor _ _) (user.called goalUser)

/-- When `m(X)` is discharged, the built-in alone descends from it, and it is the run of deeper goals;
`n(X)` stands behind, and when it is expanded, `m(X)` is overtaken and the built-in waits. If a rule calls
no built-in, as `q(X) :- p(X)`, no goal is overtaken. -/
theorem runs_delimit_descendants_overtaking :
    (∃ steps before g behind, Listed (overtaking.setting (unaryOpen "main"))
        overtaking.table.memo.isEnabled (unaryOpen queryFunctor) steps (before ++ g :: behind) ∧
      ¬ Overtaken (overtaking.setting (unaryOpen "main")) steps g ∧
      behind.map (·.goal.fact.functor) = ["as_string", "n"] ∧
      (g.descendants (before ++ g :: behind)).map (·.goal.fact.functor) = ["as_string"] ∧
      g.deeperRun behind = g.descendants (before ++ g :: behind) ∧
      Search.pendingBelow g.goal.depth (behind.map Located.goal) = true) ∧
    (∃ steps goals, Listed (overtaking.setting (unaryOpen "main")) overtaking.table.memo.isEnabled
        (unaryOpen queryFunctor) steps goals ∧
      ∃ step ∈ steps, ∃ g ∈ goals, step.Overtakes (overtaking.setting (unaryOpen "main")) g ∧
        ∃ d ∈ step.kept, (d.isOpen = true ∧ g.path <+: d.path) ∧
          (overtaking.setting (unaryOpen "main")).isBuiltin d.goal.fact = true) ∧
    ∃ steps goals, Listed (oneRule.setting (unaryOpen "q")) oneRule.table.memo.isEnabled
        (unaryOpen queryFunctor) steps goals ∧ steps.length = 2 ∧
      ∀ g, ¬ Overtaken (oneRule.setting (unaryOpen "q")) steps g := by
  obtain ⟨-, hruns, hbuiltins, -⟩ := runs_delimit_descendants overtaking (unaryOpen "main") none 4 false default
  refine ⟨?_, ?_, ?_⟩
  · obtain ⟨steps, all, query, g, behind, hsteps, hcheck⟩ := overtaking.exists_stepsOn "main" 3
      (fun steps query g behind => decide (¬ Overtaken (overtaking.setting (unaryOpen "main")) steps g ∧
        behind.map (·.goal.fact.functor) = ["as_string", "n"] ∧
        (g.descendants (query :: g :: behind)).map (·.goal.fact.functor) = ["as_string"] ∧
        ∃ d ∈ query :: g :: behind, d.isOpen = true ∧ d.DescendsFrom g))
      (by decide +kernel)
    obtain ⟨hfree, hbehind, hdescendants, hopen⟩ := of_decide_eq_true hcheck
    have hlisted : Listed (overtaking.setting (unaryOpen "main")) overtaking.table.memo.isEnabled
        (unaryOpen queryFunctor) steps ([query] ++ g :: behind) := .kept (lineage_stepsOn hsteps)
    obtain ⟨-, -, hexact⟩ := hruns _ _ hlisted _ _ _ rfl
    obtain ⟨hrun, hpending⟩ := hexact hfree
    exact ⟨_, _, _, _, hlisted, hfree, hbehind, hdescendants, hrun, hpending.2 hopen⟩
  · obtain ⟨steps, all, query, g, behind, hsteps, hcheck⟩ := overtaking.exists_stepsOn "main" 4
      (fun steps _ g _ => decide (∃ step ∈ steps, step.Overtakes (overtaking.setting (unaryOpen "main")) g ∧
        ∃ d ∈ step.kept, d.isOpen = true ∧ g.path <+: d.path))
      (by decide +kernel)
    obtain ⟨step, mem, overtakes, d, hd, hopen, hunder⟩ := of_decide_eq_true hcheck
    have hlisted : Listed (overtaking.setting (unaryOpen "main")) overtaking.table.memo.isEnabled
        (unaryOpen queryFunctor) steps (query :: g :: behind) := .kept (lineage_stepsOn hsteps)
    exact ⟨steps, _, hlisted, step, mem, g, by simp, overtakes, d, hd, ⟨hopen, hunder⟩,
      hbuiltins _ _ hlisted step mem g overtakes d hd hopen hunder⟩
  · obtain ⟨steps, all, query, g, behind, hsteps, hcheck⟩ := oneRule.exists_stepsOn "q" 2
      (fun steps _ _ _ => decide (steps.length = 2)) (by decide +kernel)
    have hlisted : Listed (oneRule.setting (unaryOpen "q")) oneRule.table.memo.isEnabled
        (unaryOpen queryFunctor) steps (query :: g :: behind) := .kept (lineage_stepsOn hsteps)
    obtain ⟨-, -, -, hfree⟩ := runs_delimit_descendants oneRule (unaryOpen "q") none 4 false default
    exact ⟨steps, _, hlisted, of_decide_eq_true hcheck,
      hfree (by decide +kernel) (by decide +kernel) steps _ hlisted⟩

/-- When `as_string(1, S)` has its value, `m(1)` is proven, but the goal `r(5)`, which `n(1)` was expanded
into, has joined its run of deeper goals. -/
theorem exists_deeper_not_descending :
    ∃ steps all before g behind, Lineage (overtaking.setting (unaryOpen "main"))
        overtaking.table.memo.isEnabled (unaryOpen queryFunctor) steps all (before ++ g :: behind) ∧
      (before ++ g :: behind).map Located.goal ∈
        (overtaking.runWithin none 5 (unaryOpen "main") false default).progress.opened.toList.map Prod.snd ∧
      g.goal.fact.functor = "m" ∧ Overtaken (overtaking.setting (unaryOpen "main")) steps g ∧
      g.descendants (before ++ g :: behind) = [] ∧
      (g.deeperRun behind).map (·.goal.fact.functor) = ["r"] ∧
      Search.pendingBelow g.goal.depth (behind.map Located.goal) = true := by
  obtain ⟨steps, all, query, g, behind, hsteps, hcheck⟩ := overtaking.exists_stepsOn "main" 5
    (fun steps query g behind => decide (g.goal.fact.functor = "m" ∧
      Overtaken (overtaking.setting (unaryOpen "main")) steps g ∧
      (g.descendants (query :: g :: behind)).length = 0 ∧
      (g.deeperRun behind).map (·.goal.fact.functor) = ["r"] ∧
      Search.pendingBelow g.goal.depth (behind.map Located.goal) = true))
    (by decide +kernel)
  obtain ⟨hfunctor, hovertaken, hdescendants, hrun, hpending⟩ := of_decide_eq_true hcheck
  refine ⟨steps, all, [query], g, behind, lineage_stepsOn hsteps, ?_, hfunctor, hovertaken,
    List.length_eq_zero_iff.1 hdescendants, hrun, hpending⟩
  have hopened : ((overtaking.stepsOn "main" 5).map fun r => r.2.2.map Located.goal).toList =
      (overtaking.runWithin none 5 (unaryOpen "main") false default).progress.opened.toList.map Prod.snd := by
    rw [runWithin_eq, Listing.progress_outcome]
    with_unfolding_all rfl
  rw [hsteps] at hopened
  rw [← hopened]
  exact List.mem_singleton.2 rfl

end Horn.Engine
