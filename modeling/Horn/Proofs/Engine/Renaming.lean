import Horn.Proofs.Engine.EarlyExit
import Horn.Proofs.Search.Renaming

/-!
Searches of an engine for goals that differ in the names of variables only.

As long as a user wrote these names, they are placeholders: one search ends in the same pass as the other,
and both find the same facts. A goal may hold fresh numbers too, though; the clause of the query is renamed
to fresh numbers as well, from the first on, so the two are mixed up.
-/

set_option autoImplicit false
set_option relaxedAutoImplicit false

namespace Horn

namespace Engine

open Builtin (Ambient)
open Search (Listing Variants Older Calm)

variable {e : Engine} {goal : Fact} {change : VarName → VarName}

/-- The clause of a query is renamed to the same clause, whatever the variables are named before. -/
private theorem variant_setting (e : Engine)
    (injective : ∀ x ∈ goal.varNames, ∀ y ∈ goal.varNames, change x = change y → x = y) :
    (e.setting goal).Variant (e.setting (goal.rename change)) := by
  have hgoal := Correspondence.ofFact_renamed injective
  have hhead : (Correspondence.ofRenaming change goal.varNames injective).OfFact
      (queryClause goal).head (queryClause (goal.rename change)).head :=
    ⟨rfl, hgoal.args⟩
  have hkey : (queryClause goal).key = (queryClause (goal.rename change)).key := hhead.key
  have hrenamed (start : Nat) : (queryClause goal).renameApart start =
      (queryClause (goal.rename change)).renameApart start :=
    Correspondence.renameApart_eq rfl hhead (.cons hgoal .nil) rfl start
  refine ⟨rfl, funext fun key => ?_, fun next key => ?_⟩
  · rw [Bool.eq_iff_iff]
    change (e.table.program.pushFront _).defines key = true ↔
      (e.table.program.pushFront _).defines key = true
    rw [Program.defines_pushFront, Program.defines_pushFront]
    simp only [List.exists_mem_cons_iff, hkey]
  · rw [candidates_setting, candidates_setting]
    by_cases hquery : (queryClause goal).key = key
    · rw [List.filter_cons_of_pos (by simpa using hquery),
        List.filter_cons_of_pos (by simpa using hkey ▸ hquery)]
      simp only [Search.renameClauses, hrenamed]
    · rw [List.filter_cons_of_neg (by simpa using hquery),
        List.filter_cons_of_neg (by simpa using hkey ▸ hquery)]

private theorem alike_rename
    (named : ∀ name ∈ goal.varNames, (∃ text, name = .named text) ∧ ∃ text, change name = .named text)
    (injective : ∀ x ∈ goal.varNames, ∀ y ∈ goal.varNames, change x = change y → x = y)
    (deterministic : e.CallsDeterministic goal) (passes : Nat) (stopEarly : Bool)
    (ambient ambient' : Ambient) :
    (e.listing none passes goal stopEarly ambient).1 =
        (e.listing none passes (goal.rename change) stopEarly ambient').1 ∧
      Listing.Alike
        (fun next a b => Variants a b ∧ (Older next a ∧ Calm (e.setting goal) a) ∧ Older next b)
        (e.listing none passes goal stopEarly ambient).2
        (e.listing none passes (goal.rename change) stopEarly ambient').2 := by
  have hsim := (Search.simulation_variants deterministic.callsCalm).ofVariant
    (variant_setting e injective)
  have hledger : Search.Ledger.Agrees ⟨e.table.memo, ambient, 0, .zero⟩
      ⟨e.table.memo, ambient', 0, .zero⟩ :=
    ⟨rfl, rfl, rfl⟩
  have hvariants : Variants [.pending 0 (goal.withFunctor queryFunctor)]
      [.pending 0 ((goal.rename change).withFunctor queryFunctor)] :=
    ⟨.ofRenaming change goal.varNames injective, rfl,
      .cons ⟨⟨rfl, rfl, (Correspondence.ofFact_renamed injective).args⟩, fun _ => rfl⟩ .nil⟩
  -- A search draws fresh numbers from 0 on, so no name but one of a user is older than these.
  have hgoal : Older 0 [.pending 0 (goal.withFunctor queryFunctor)] := by
    intro g hg name hname
    obtain rfl := List.mem_singleton.1 hg
    obtain ⟨text, rfl⟩ := (named name hname).1
    trivial
  have hrenamed : Older 0 [.pending 0 ((goal.rename change).withFunctor queryFunctor)] := by
    intro g hg name hname
    obtain rfl := List.mem_singleton.1 hg
    have hname : name ∈ (goal.rename change).varNames := hname
    rw [Fact.varNames_rename, List.mem_map] at hname
    obtain ⟨old, hold, rfl⟩ := hname
    obtain ⟨text, htext⟩ := (named old hold).2
    rw [htext]
    trivial
  exact (Listing.alike_start hsim hledger
    ⟨hvariants, ⟨hgoal, calm_query e goal⟩, hrenamed⟩).run hsim stopEarly passes

/-- Variables that a user named are placeholders: if they are renamed one to one, a search ends in the same
pass and finds the same facts in the same order, whatever is memoized. -/
theorem found_rename (goal : Fact) (change : VarName → VarName)
    (named : ∀ name ∈ goal.varNames, (∃ text, name = .named text) ∧ ∃ text, change name = .named text)
    (injective : ∀ x ∈ goal.varNames, ∀ y ∈ goal.varNames, change x = change y → x = y)
    (deterministic : e.CallsDeterministic goal) (passes : Nat) (stopEarly : Bool)
    (ambient ambient' : Ambient) :
    (e.searchWithin none passes (goal.rename change) stopEarly ambient').2.found =
      (e.searchWithin none passes goal stopEarly ambient).2.found := by
  by_cases reserved : goal.functor = queryFunctor
  · have hreserved : (goal.rename change).functor = queryFunctor := reserved
    rw [searchWithin, searchWithin, if_pos reserved, if_pos hreserved]
  · have hunreserved : (goal.rename change).functor ≠ queryFunctor := reserved
    obtain ⟨hended, halike⟩ :=
      alike_rename named injective deterministic passes stopEarly ambient ambient'
    rw [found_eq reserved, found_eq hunreserved]
    have hanswers := halike.answers_eq stopEarly
    generalize e.listing none passes goal stopEarly ambient = result at hended hanswers ⊢
    generalize e.listing none passes (goal.rename change) stopEarly ambient' = result' at hended hanswers ⊢
    obtain ⟨ended, p⟩ := result
    obtain ⟨ended', q⟩ := result'
    simp only at hended hanswers
    subst hended
    cases ended with
    | false => rfl
    | true => rw [listed?, listed?, hanswers, Fact.functor_rename]

private def openPair (functor : String) (x y : VarName) : Fact :=
  ⟨functor, [.var ⟨x, none⟩, .var ⟨y, none⟩]⟩

private def pairAt (functor : String) (a b : Int64) : Fact :=
  ⟨functor, [.lit (.integer a), .lit (.integer b)]⟩

/-- A fact `p(1, 2)` and a rule `q(B, A) :- p(A, B)`, with `q/2` memoized. -/
def onePair : Engine :=
  after [.assert (pairAt "p" 1 2) [],
    .assert (openPair "q" (.named "B") (.named "A")) [openPair "p" (.named "A") (.named "B")],
    .enableMemo "q/2"]

private def renamePair (x y name : VarName) : VarName :=
  if name = .named "A" then x else y

private theorem rename_openPair (functor : String) (x y : VarName) :
    (openPair functor (.named "A") (.named "B")).rename (renamePair x y) = openPair functor x y := by
  simp [openPair, Fact.rename, Atom.rename, renamePair]

private theorem names_openPair (functor : String) :
    ∀ name ∈ (openPair functor (.named "A") (.named "B")).varNames,
      name = .named "A" ∨ name = .named "B" := by
  intro name hname
  simpa [openPair, Fact.varNames, Fact.occurrences, Atom.occurrence?] using hname

private theorem renamePair_injective (functor : String) {x y : VarName} (differ : x ≠ y) :
    ∀ z ∈ (openPair functor (.named "A") (.named "B")).varNames,
      ∀ w ∈ (openPair functor (.named "A") (.named "B")).varNames,
        renamePair x y z = renamePair x y w → z = w := by
  intro z hz w hw
  rcases names_openPair functor z hz with rfl | rfl <;>
    rcases names_openPair functor w hw with rfl | rfl <;> simp [renamePair, differ, differ.symm]

theorem found_rename_onePair :
    (onePair.searchWithin none 9 (openPair "q" (.named "A") (.named "B")) false default).2.found =
        some [pairAt "q" 2 1] ∧
      (onePair.searchWithin none 9 (openPair "q" (.named "B") (.named "A")) false ⟨[], 7, 5⟩).2.found =
        some [pairAt "q" 2 1] := by
  have hfound : (onePair.searchWithin none 9 (openPair "q" (.named "A") (.named "B")) false
      default).2.found = some [pairAt "q" 2 1] := by
    rw [found_eq (by decide)]
    with_unfolding_all rfl
  refine ⟨hfound, ?_⟩
  rw [← hfound, ← rename_openPair "q" (.named "B") (.named "A")]
  refine found_rename (e := onePair) (openPair "q" (.named "A") (.named "B"))
    (renamePair (.named "B") (.named "A")) ?_ (renamePair_injective "q" (by decide))
    (callsDeterministic_of_ne (by decide +kernel)) 9 false default ⟨[], 7, 5⟩
  intro name hname
  rcases names_openPair "q" name hname with rfl | rfl
  · exact ⟨⟨"A", rfl⟩, "B", rfl⟩
  · exact ⟨⟨"B", rfl⟩, "A", rfl⟩

/-- A goal that holds fresh numbers is mixed up with the clause of the query, which is renamed to fresh
numbers from the first on: a search for `p(_1, _0)` finds nothing where one for `p(A, B)` does. -/
theorem exists_found_differs_fresh :
    ¬ ∀ (e : Engine) (goal goal' : Fact), e.Reachable → (goal == goal') = true →
      e.CallsDeterministic goal → e.CallsDeterministic goal' →
      ∀ (stopEarly : Bool) (ambient : Ambient),
        ((∃ passes facts, (e.searchWithin none passes goal stopEarly ambient).2.found = some facts) ↔
          ∃ passes facts, (e.searchWithin none passes goal' stopEarly ambient).2.found = some facts) ∧
        ∀ (passes passes' : Nat) (facts facts' : List Fact),
          (e.searchWithin none passes goal stopEarly ambient).2.found = some facts →
          (e.searchWithin none passes' goal' stopEarly ambient).2.found = some facts' →
            (facts == facts') = true := by
  intro h
  have hfound : (onePair.searchWithin none 9 (openPair "p" (.named "A") (.named "B")) false
      default).2.found = some [pairAt "p" 1 2] := by
    rw [found_eq (by decide)]
    with_unfolding_all rfl
  have hfresh : (onePair.searchWithin none 9 (openPair "p" (.fresh 1) (.fresh 0)) false
      default).2.found = some [] := by
    rw [found_eq (by decide)]
    with_unfolding_all rfl
  have hequal : (openPair "p" (.named "A") (.named "B") == openPair "p" (.fresh 1) (.fresh 0)) = true := by
    rw [← rename_openPair "p" (.fresh 1) (.fresh 0)]
    exact Fact.beq_rename (renamePair_injective "p" (by decide))
  have hsame := (h onePair (openPair "p" (.named "A") (.named "B")) (openPair "p" (.fresh 1) (.fresh 0))
    (reachableBy_after fun _ _ _ => trivial) hequal
    (callsDeterministic_of_ne (by decide +kernel)) (callsDeterministic_of_ne (by decide +kernel))
    false default).2 9 9 _ _ hfound hfresh
  exact absurd hsame (by decide)

end Engine

end Horn
