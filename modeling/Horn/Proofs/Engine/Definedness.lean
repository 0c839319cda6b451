import Horn.Proofs.Builtin.Registry
import Horn.Proofs.Engine.Soundness
import Horn.Proofs.Search.Definedness

/-!
Undefined predicates in the searches of an engine.

A search runs on the active table with the clause of the query in front, so a predicate is declared if it
is a built-in or has a clause there: `Engine.Declares`. No goal of another predicate gets into a solution,
and each such predicate that a clause calls is warned of once: `Engine.undefined_reported_once`.
-/

set_option autoImplicit false
set_option relaxedAutoImplicit false

namespace Horn

open Builtin (Ambient Registry)

namespace Engine

variable {e : Engine} {goal f : Fact}

/-- A fact calls a built-in, or a predicate that has a clause: one of the active table, or that of the
query. -/
def Declares (e : Engine) (goal f : Fact) : Prop :=
  e.registry.contains f.functor f.arity = true ∨
    ∃ c ∈ queryClause goal :: e.clauses, c.head.functor = f.functor ∧ c.head.arity = f.arity

instance (e : Engine) (goal f : Fact) : Decidable (e.Declares goal f) :=
  inferInstanceAs (Decidable (e.registry.contains f.functor f.arity = true ∨
    ∃ c ∈ queryClause goal :: e.clauses, c.head.functor = f.functor ∧ c.head.arity = f.arity))

theorem isDefined_setting_iff : (e.setting goal).isDefined f = true ↔ e.Declares goal f := by
  have hclauses : (e.setting goal).program.defines f.key = true ↔
      ∃ c ∈ queryClause goal :: e.clauses, c.head.functor = f.functor ∧ c.head.arity = f.arity := by
    rw [setting, Program.defines_pushFront]
    exact exists_congr fun c => and_congr_right fun _ => Fact.key_eq_iff
  rw [Search.Setting.isDefined, Bool.or_eq_true, hclauses]
  rfl

theorem isDefined_setting_eq_false (undeclared : ¬ e.Declares goal f) :
    (e.setting goal).isDefined f = false :=
  Bool.eq_false_iff.2 (mt isDefined_setting_iff.1 undeclared)

/-- The goal that stands for the query has a clause. -/
theorem declares_query (e : Engine) (goal : Fact) :
    e.Declares goal (goal.withFunctor queryFunctor) :=
  .inr ⟨queryClause goal, List.mem_cons_self, rfl, rfl⟩

/-- The key of an undeclared predicate is the key of no built-in and of no clause. -/
theorem key_of_not_declares (undeclared : ¬ e.Declares goal f) :
    e.registry.containsKey f.key = false ∧ ∀ c ∈ queryClause goal :: e.clauses, c.key ≠ f.key := by
  rw [Declares, not_or, Bool.not_eq_true] at undeclared
  refine ⟨?_, fun c hc hkey => ?_⟩
  · rw [Fact.key, Registry.containsKey_predicateKey, undeclared.1, Bool.and_false]
  · exact undeclared.2 ⟨c, hc, predicateKey_inj hkey⟩

section Run

variable {deadline : Option Nat} {passes : Nat} {stopEarly : Bool} {ambient : Ambient}

/-- All goals of the solutions that are open or finished in a run call declared predicates. -/
theorem declares_of_mem_solution {solution : Search.Solution}
    (mem : solution ∈ (e.runWithin deadline passes goal stopEarly ambient).progress.opened.toList.map
        Prod.snd ∨
      solution ∈ (e.runWithin deadline passes goal stopEarly ambient).progress.finished) :
    ∀ g ∈ solution, e.Declares goal g.fact := by
  have hstart : ∀ a ∈ (Search.Listing.start ⟨e.table.memo, ambient, 0, .zero⟩
      (goal.withFunctor queryFunctor)).standing, Search.IsResolvable (e.setting goal) a := by
    intro a ha g hg
    obtain rfl := List.mem_singleton.1 ha
    obtain rfl := List.mem_singleton.1 hg
    exact isDefined_setting_iff.2 (declares_query e goal)
  rw [runWithin_eq, Search.Listing.progress_outcome] at mem
  have hsolution : Search.IsResolvable (e.setting goal) solution :=
    Search.Listing.isResolvable_run hstart passes solution (List.mem_append.2 mem)
  exact fun g hg => isDefined_setting_iff.1 (hsolution g hg)

/-- What a run notes are the undeclared predicates that it met, each once. -/
theorem undefined_runWithin (e : Engine) (deadline : Option Nat) (passes : Nat) (goal : Fact)
    (stopEarly : Bool) (ambient : Ambient) :
    (e.runWithin deadline passes goal stopEarly ambient).progress.ledger.stats.undefined =
      distinct (Search.metBy (e.setting goal) stopEarly deadline passes
        (.start ⟨e.table.memo, ambient, 0, .zero⟩ (goal.withFunctor queryFunctor))) := by
  rw [runWithin_eq, Search.Listing.progress_outcome]
  exact Search.Listing.undefined_run (show _ = distinct [] from rfl) passes

end Run

/-- A clause with an undeclared goal in its body makes no child; if its head unifies and its conditions
hold, one of its undeclared goals is noted. -/
theorem undeclared_attempt {l : Search.Ledger} {solution : Search.Solution} {choice : Search.Choice}
    {g : Search.Goal} (chosen : Search.choose (e.setting goal) solution = some choice)
    (found : solution[choice.position]? = some g) {c : Fact × List Fact}
    (candidate : c ∈ Search.clausesFor (e.setting goal) l g.fact) (mem : f ∈ c.2)
    (undeclared : ¬ e.Declares goal f) :
    (Search.attempt (e.setting goal) l.memo.isEnabled solution choice.position g.fact c.1 c.2).child? =
        none ∧
      ∀ b, unify c.1 g.fact = some b → c.2.all b.respects = true →
        ∃ f ∈ c.2, ¬ e.Declares goal f ∧
          f.key ∈ (Search.expand (e.setting goal) l solution).2.stats.undefined := by
  have hundefined := isDefined_setting_eq_false undeclared
  refine ⟨Search.child?_eq_none mem hundefined, fun b unified respected => ?_⟩
  obtain ⟨f', hf', hundefined', hattempt⟩ :=
    Search.exists_attempt_eq_undefined unified respected mem hundefined
  refine ⟨f', hf', mt isDefined_setting_iff.2 (Bool.eq_false_iff.1 hundefined'), ?_⟩
  exact Search.mem_undefined_expand.2
    (.inr (Search.mem_tried.2 ⟨choice, g, c, chosen, found, candidate, hattempt.symm⟩))

/-- In every state of every search, all goals of all solutions call declared predicates; the undeclared
predicates that were met are noted once each, in the order in which they were met, and are what is warned
of; and a clause with an undeclared goal in its body makes no child, but one of its undeclared goals is
noted if its head unifies and its conditions hold. -/
theorem undefined_reported_once (e : Engine) (goal : Fact) (deadline : Option Nat) (passes : Nat)
    (stopEarly : Bool) (ambient : Ambient) :
    let s := e.setting goal
    let start := Search.Progress.start ⟨e.table.memo, ambient, 0, .zero⟩ (goal.withFunctor queryFunctor)
    let p := (e.runWithin deadline passes goal stopEarly ambient).progress
    let noted := p.ledger.stats.undefined
    (∀ solution, solution ∈ p.opened.toList.map Prod.snd ∨ solution ∈ p.finished →
      ∀ g ∈ solution, e.Declares goal g.fact) ∧
    (noted.Nodup ∧ noted = distinct (Search.metBy s stopEarly deadline passes start) ∧
      (goal.functor ≠ queryFunctor →
        (e.searchWithin deadline passes goal stopEarly ambient).2.warnings =
          noted.map .undefinedPredicate)) ∧
    (∀ key ∈ noted, e.registry.containsKey key = false ∧
      ∀ c ∈ queryClause goal :: e.clauses, c.key ≠ key) ∧
    ∀ (l : Search.Ledger) (solution : Search.Solution) (choice : Search.Choice) (g : Search.Goal),
      Search.choose s solution = some choice → solution[choice.position]? = some g →
        let tried (c : Fact × List Fact) : Search.Attempt :=
          Search.attempt s l.memo.isEnabled solution choice.position g.fact c.1 c.2
        (Search.expand s l solution).1 =
            (Search.clausesFor s l g.fact).filterMap (fun c => (tried c).child?) ∧
          ∀ c ∈ Search.clausesFor s l g.fact, ∀ f ∈ c.2, ¬ e.Declares goal f →
            (tried c).child? = none ∧
              ∀ b, unify c.1 g.fact = some b → c.2.all b.respects = true →
                ∃ f ∈ c.2, ¬ e.Declares goal f ∧
                  f.key ∈ (Search.expand s l solution).2.stats.undefined := by
  intro s start p noted
  have hnoted : noted = distinct (Search.metBy s stopEarly deadline passes start) :=
    undefined_runWithin e deadline passes goal stopEarly ambient
  refine ⟨fun solution mem => declares_of_mem_solution mem, ⟨?_, hnoted, ?_⟩, ?_, ?_⟩
  · rw [hnoted]
    exact (pairwise_distinct _).imp fun h => ne_of_beq_false h
  · intro unreserved
    rw [searchWithin, if_neg unreserved]
  · intro key hkey
    rw [hnoted] at hkey
    obtain ⟨f, hundefined, rfl⟩ := Search.exists_of_mem_metBy (mem_of_mem_distinct hkey)
    exact key_of_not_declares (mt isDefined_setting_iff.2 (Bool.eq_false_iff.1 hundefined))
  · intro l solution choice g chosen found tried
    exact ⟨Search.expand_fst chosen found, fun c candidate f mem undeclared =>
      undeclared_attempt chosen found candidate mem undeclared⟩

/-- A fact `p(1)` and three rules for `q(X)`, two of which call `r(X)`, which has no clause. -/
def callsMissing : Engine :=
  after [.assert (unaryAt "p" 1) [], .assert (unaryOpen "q") [unaryOpen "r"],
    .assert (unaryOpen "q") [unaryOpen "p", unaryOpen "r"], .assert (unaryOpen "q") [unaryOpen "p"]]

private theorem undefined_callsMissing :
    (callsMissing.runWithin none 9 (unaryOpen "q") false default).progress.ledger.stats.undefined =
      ["r/1"] := by
  rw [runWithin_eq, Search.Listing.progress_outcome]
  with_unfolding_all rfl

/-- The first rule with a call of `r(X)`, its variable renamed. -/
private def missingRule : Fact × List Fact :=
  (⟨"q", [.var ⟨.fresh 0, none⟩]⟩, [⟨"r", [.var ⟨.fresh 0, none⟩]⟩])

/-- The warning comes once, although two rules call `r(X)`; and the first of these makes no child. -/
theorem undefined_reported_once_callsMissing :
    (callsMissing.searchWithin none 9 (unaryOpen "q") false default).2.warnings =
        [.undefinedPredicate "r/1"] ∧
      callsMissing.registry.containsKey "r/1" = false ∧
      (Search.attempt (callsMissing.setting (unaryOpen "q")) (fun _ => false)
        [Search.Goal.pending 1 (unaryOpen "q")] 0 (unaryOpen "q") missingRule.1
        missingRule.2).child? = none := by
  obtain ⟨-, ⟨-, -, hwarnings⟩, hkeys, hexpand⟩ :=
    undefined_reported_once callsMissing (unaryOpen "q") none 9 false default
  rw [undefined_callsMissing] at hwarnings hkeys
  refine ⟨hwarnings (by decide), (hkeys "r/1" (by simp)).1, ?_⟩
  have hundeclared : ¬ callsMissing.Declares (unaryOpen "q") ⟨"r", [.var ⟨.fresh 0, none⟩]⟩ := by
    decide +kernel
  have hcandidate : missingRule ∈ Search.clausesFor (callsMissing.setting (unaryOpen "q"))
      ⟨∅, default, 0, .zero⟩ (unaryOpen "q") :=
    List.mem_of_getElem? (i := 0) (by with_unfolding_all rfl)
  obtain ⟨-, hattempts⟩ := hexpand ⟨∅, default, 0, .zero⟩ [Search.Goal.pending 1 (unaryOpen "q")]
    (.clauses 0) _ (by with_unfolding_all rfl) rfl
  exact (hattempts _ hcandidate _ (List.mem_singleton.2 rfl) hundeclared).1

end Engine

end Horn
