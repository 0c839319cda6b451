import Horn.Proofs.Engine.Soundness
import Horn.Proofs.Search.Termination

/-!
Which searches of an engine come to their end.

On a program without recursion every search without a deadline comes to its end, whatever is memoized:
`Engine.search_ends`. With recursion it may depend on the memo, because the goals that are kept for it
make solutions differ that would look alike without them. A rule `p(X) :- p(X)` shows it:
`Engine.exists_endless_memoized`.
-/

set_option autoImplicit false
set_option relaxedAutoImplicit false

namespace Horn

open Builtin (Registry Ambient)
open Search (Listing)

namespace Engine

variable {e : Engine}

/-- The predicates have a rank that falls from the head of every clause to the goals of its body. -/
def Falls (e : Engine) (rank : String → Nat) : Prop :=
  ∀ c ∈ e.clauses, ∀ g ∈ c.body, rank g.key < rank c.key

/-- The rank of the query is above that of its goal. -/
private def rankAbove (rank : String → Nat) (goal : Fact) (key : String) : Nat :=
  if key = predicateKey queryFunctor goal.arity then rank goal.key + 1 else rank key

private theorem rankAbove_of_ne (rank : String → Nat) (goal : Fact) {f : Fact}
    (h : f.functor ≠ queryFunctor) : rankAbove rank goal f.key = rank f.key :=
  if_neg fun hkey => h (predicateKey_inj hkey).1

/-- The ranks of an engine make the program that a search runs on a ranked one. -/
private theorem exists_ranked (heads : ∀ c ∈ e.clauses, c.head.functor ≠ queryFunctor)
    (uncalled : ∀ c ∈ e.clauses, ∀ g ∈ c.body, g.functor ≠ queryFunctor) {rank : String → Nat}
    (falls : e.Falls rank) {goal : Fact} (unreserved : goal.functor ≠ queryFunctor) :
    ∃ size, Search.Ranked (e.setting goal) (rankAbove rank goal) size := by
  have hcandidate : ∀ key, ∀ c ∈ (e.setting goal).program.candidates key,
      c ∈ queryClause goal :: e.clauses ∧ c.key = key := by
    intro key c hc
    rw [candidates_setting] at hc
    simpa using List.mem_filter.1 hc
  refine ⟨((queryClause goal :: e.clauses).map fun c => c.body.length).sum, ?_, ?_⟩
  · intro key c hc g hg
    obtain ⟨hmem, rfl⟩ := hcandidate key c hc
    rcases List.mem_cons.1 hmem with rfl | hmem
    · obtain rfl := List.mem_singleton.1 hg
      rw [rankAbove_of_ne rank g unreserved]
      exact Nat.lt_of_lt_of_eq (Nat.lt_succ_self _) (if_pos rfl).symm
    · rw [rankAbove_of_ne rank goal (uncalled c hmem g hg), Clause.key,
        rankAbove_of_ne rank goal (heads c hmem)]
      exact falls c hmem g hg
  · intro key c hc
    exact List.le_sum_of_mem (List.mem_map_of_mem (hcandidate key c hc).1)

/-- On a program without recursion every search without a deadline comes to its end if it may make
enough passes, whatever is memoized or recorded. -/
theorem search_ends (reachable : e.Reachable)
    (uncalled : ∀ c ∈ e.clauses, ∀ g ∈ c.body, g.functor ≠ queryFunctor) (rank : String → Nat)
    (falls : e.Falls rank) (goal : Fact) :
    ∃ N, ∀ passes, N ≤ passes → ∀ (stopEarly : Bool) (ambient : Ambient),
      ∃ facts, (e.searchWithin none passes goal stopEarly ambient).2.found = some facts := by
  by_cases hreserved : goal.functor = queryFunctor
  · refine ⟨0, fun passes _ stopEarly ambient => ⟨[], ?_⟩⟩
    rw [searchWithin, if_pos hreserved]
  · obtain ⟨size, hranked⟩ := exists_ranked reachable.head_ne uncalled falls hreserved
    let start (ambient : Ambient) : Listing :=
      .start ⟨e.table.memo, ambient, 0, .zero⟩ (goal.withFunctor queryFunctor)
    refine ⟨(start default).load (rankAbove rank goal) size (e.clauses.length + 2) + 1, ?_⟩
    intro passes hpasses stopEarly ambient
    have hended : (e.listing none passes goal stopEarly ambient).1 = true :=
      Listing.run_ends (p := start ambient) hranked (length_candidates_lt e goal) hpasses
    rw [found_eq hreserved]
    generalize e.listing none passes goal stopEarly ambient = result at hended
    obtain ⟨ended, p⟩ := result
    obtain rfl : ended = true := hended
    exact ⟨_, rfl⟩

theorem search_ends_oneRule :
    ∃ N, ∀ passes, N ≤ passes → ∀ (stopEarly : Bool) (ambient : Ambient),
      ∃ facts, (oneRule.searchWithin none passes (unaryOpen "q") stopEarly ambient).2.found =
        some facts :=
  search_ends (reachableBy_after fun _ _ _ => trivial) (by decide +kernel)
    (fun key => if key = "q/1" then 1 else 0) (by unfold Falls; decide +kernel) _

/-! ### A loop -/

/-- The rule `p(X) :- p(X)`. -/
def loop : Engine :=
  after [.assert (unaryOpen "p") [unaryOpen "p"]]

/-- The rule with `p/1` memoized. -/
def loopMemoized : Engine :=
  after [.assert (unaryOpen "p") [unaryOpen "p"], .enableMemo "p/1"]

/-- Goals `p(1)` from a depth on, all but the last one discharged. -/
private def chain : (depth length : Nat) → Search.Solution
  | depth, 0 => [⟨unaryAt "p" 1, false, depth⟩]
  | depth, length + 1 => ⟨unaryAt "p" 1, true, depth⟩ :: chain (depth + 1) length

/-- The solution that waits after some passes. -/
private def chained (length : Nat) : Search.Solution :=
  ⟨unaryAt queryFunctor 1, true, 0⟩ :: chain 1 length

private theorem length_chain (depth length : Nat) : (chain depth length).length = length + 1 := by
  induction length generalizing depth with
  | zero => rfl
  | succ length ih => rw [chain, List.length_cons, ih]

private theorem length_chained (length : Nat) : (chained length).length = length + 2 := by
  rw [chained, List.length_cons, length_chain]

/-- The last goal of a chain is below every goal above it. -/
private theorem pendingBelow_chain {above depth : Nat} (h : above < depth) (length : Nat) :
    Search.pendingBelow above (chain depth length) = true := by
  induction length generalizing depth with
  | zero => simp [chain, Search.pendingBelow, Search.hasPending, h]
  | succ length ih =>
    have hrest := ih (Nat.lt_succ_of_lt h)
    rw [Search.pendingBelow] at hrest ⊢
    rw [chain, List.takeWhile_cons_of_pos (by simpa using h), Search.hasPending, List.any_cons]
    exact Bool.or_eq_true_iff.2 (.inr hrest)

/-- All goals of a chain are kept, and none is proven. -/
private theorem keeps_chain {memoized : String → Bool} (h : memoized (unaryAt "p" 1).key = true)
    (depth length : Nat) :
    Search.dropDischarged memoized (chain depth length) = chain depth length ∧
      Search.provenGoals memoized (chain depth length) = [] := by
  induction length generalizing depth with
  | zero => exact ⟨rfl, rfl⟩
  | succ length ih =>
    obtain ⟨hkept, hnone⟩ := ih (depth + 1)
    have hbelow := pendingBelow_chain (Nat.lt_succ_self depth) length
    constructor
    · rw [chain, Search.dropDischarged, Search.isAwaited, hbelow, hkept]
      simp [Search.Goal.key, h]
    · rw [chain, Search.provenGoals, hbelow, hnone]
      simp

private theorem discharge_chain (b : Bindings) (depth length : Nat) :
    Search.discharge b [unaryAt "p" 1] length (chain depth length) = chain depth (length + 1) := by
  induction length generalizing depth with
  | zero => rfl
  | succ length ih => rw [chain, Search.discharge, ih]; rfl

/-- A chain is its last goal behind discharged ones. -/
private theorem chain_eq_append (depth length : Nat) : ∃ before, chain depth length =
    before ++ [⟨unaryAt "p" 1, false, depth + length⟩] ∧ before.length = length ∧
      ∀ g ∈ before, g.resolved = true ∧ g.fact = unaryAt "p" 1 := by
  induction length generalizing depth with
  | zero => exact ⟨[], rfl, rfl, by simp⟩
  | succ length ih =>
    obtain ⟨before, hchain, hlength, hbefore⟩ := ih (depth + 1)
    refine ⟨⟨unaryAt "p" 1, true, depth⟩ :: before, ?_, by simp [hlength], by simpa using hbefore⟩
    rw [chain, hchain, Nat.add_right_comm, Nat.add_assoc]
    rfl

private def loopSetting : Search.Setting :=
  loopMemoized.setting (unaryAt "p" 1)

private theorem attempt_chained {memoized : String → Bool}
    (h : memoized (unaryAt "p" 1).key = true) (length : Nat) (name : VarName) :
    Search.attempt loopSetting memoized (chained length) (length + 1) (unaryAt "p" 1)
        ⟨"p", [.var ⟨name, none⟩]⟩ [⟨"p", [.var ⟨name, none⟩]⟩] =
      .discharged [] (some (chained (length + 1))) := by
  let b : Bindings := ⟨[⟨name, .lit (.integer 1)⟩]⟩
  have hunify : unify ⟨"p", [.var ⟨name, none⟩]⟩ (unaryAt "p" 1) = some b := rfl
  have hvalue : b.substitute ⟨"p", [.var ⟨name, none⟩]⟩ = unaryAt "p" 1 := by
    simp [b, Bindings.substitute, Bindings.substituteAtom, Bindings.resolve, Binding.follow, unaryAt]
  have hground : ∀ g ∈ chained length, b.respects g.fact = true := by
    obtain ⟨before, hchain, -, hbefore⟩ := chain_eq_append 1 length
    intro g hg
    rw [chained, hchain, List.mem_cons, List.mem_append, List.mem_singleton] at hg
    rcases hg with rfl | hg | rfl
    · rfl
    · rw [(hbefore g hg).2]
      rfl
    · rfl
  have hdefined : loopSetting.isDefined (unaryAt "p" 1) = true := by decide +kernel
  obtain ⟨hkept, hnone⟩ := keeps_chain h 1 (length + 1)
  have hcompact : Search.compact memoized (Search.discharge b [unaryAt "p" 1] (length + 1)
      (chained length)) = (chained (length + 1), []) := by
    rw [chained, Search.discharge, discharge_chain, Search.compact_cons, hkept, hnone]
    rfl
  rw [Search.attempt, hunify]
  simp only
  rw [Search.derive_eq_discharged rfl (by simp [hvalue, hdefined]) hground, List.map_singleton,
    hvalue, hcompact]
  have hopen : Search.hasPending (chained (length + 1)) = true := by
    obtain ⟨before, hchain, -, -⟩ := chain_eq_append 1 (length + 1)
    rw [chained, hchain]
    simp [Search.hasPending]
  simp [hopen]

/-- The last goal of a chain is expanded into one more goal of the chain, again and again. -/
private theorem expand_chained {l : Search.Ledger} (memo : l.memo = ⟨["p/1"], []⟩) (length : Nat) :
    (Search.expand loopSetting l (chained length)).1 = [chained (length + 1)] ∧
      (Search.expand loopSetting l (chained length)).2.memo = l.memo := by
  have hgoal : Search.expand loopSetting l (chained length) =
      Search.expandGoal loopSetting l (chained length) (length + 1) (unaryAt "p" 1) := by
    obtain ⟨before, hchain, hlength, hbefore⟩ := chain_eq_append 1 length
    have huser : loopSetting.isBuiltin (unaryAt "p" 1) = false := by decide +kernel
    have hsplit : chained length = (⟨unaryAt queryFunctor 1, true, 0⟩ :: before) ++
        ⟨unaryAt "p" 1, false, 1 + length⟩ :: [] := by
      rw [chained, hchain]
      rfl
    have hresolved : ∀ g ∈ (⟨unaryAt queryFunctor 1, true, 0⟩ : Search.Goal) :: before,
        g.resolved = true :=
      List.forall_mem_cons.2 ⟨rfl, fun g hg => (hbefore g hg).1⟩
    have hchoice : Search.choose loopSetting (chained length) = some (.clauses (length + 1)) := by
      rw [hsplit, ← hlength, ← List.length_cons]
      refine Search.choose_clauses_eq hresolved rfl ?_
      rw [Search.pending_append_cons _ _ rfl, Search.pending_eq_nil hresolved]
      simpa [Search.pending] using huser
    rw [Search.expand, hchoice]
    have hget : (chained length)[length + 1]? = some ⟨unaryAt "p" 1, false, 1 + length⟩ := by
      rw [hsplit, List.getElem?_append_right (by simp [hlength])]
      simp [hlength]
    simp only [hget]
  have hmiss : Search.cachedTuple? l (unaryAt "p" 1) = none := by
    rw [Search.cachedTuple?, memo]
    split <;> rfl
  obtain ⟨name, hclauses⟩ : ∃ name, Search.renamedClauses loopSetting l (unaryAt "p" 1) =
      [(⟨"p", [.var ⟨name, none⟩]⟩, [⟨"p", [.var ⟨name, none⟩]⟩])] :=
    ⟨.fresh (l.nextVar + 0), by with_unfolding_all rfl⟩
  have henabled : l.memo.isEnabled (unaryAt "p" 1).key = true := by
    rw [memo]
    decide +kernel
  have hattempts : Search.attempts loopSetting l.memo.isEnabled (chained length) (length + 1)
      (unaryAt "p" 1) (Search.renamedClauses loopSetting l (unaryAt "p" 1)) =
        [.discharged [] (some (chained (length + 1)))] := by
    rw [hclauses, Search.attempts, List.map_singleton, attempt_chained henabled]
  rw [hgoal, Search.expandGoal, hmiss]
  simp only
  rw [Search.expandClauses_eq, hattempts]
  exact ⟨rfl, rfl⟩

/-- A search that has one chain to go on with, which is longer than all that it has made before. -/
private structure Chaining (p : Listing) (length : Nat) : Prop where
  memo : p.base.ledger.memo = ⟨["p/1"], []⟩
  waiting : p.waiting = [chained length]
  short : ∀ solution ∈ p.made, solution.length ≤ length + 2

private theorem Chaining.advance {p : Listing} {length : Nat} (chaining : Chaining p length)
    {solution : Search.Solution} {behind : Search.Queue (Nat × Search.Solution)}
    (next : p.base.next? false = some (solution, behind)) :
    Chaining (p.advance loopSetting solution behind) (length + 1) := by
  have hwaiting := Listing.waiting_of_next? next
  rw [chaining.waiting, List.cons.injEq] at hwaiting
  obtain ⟨rfl, hbehind⟩ := hwaiting
  let counted := p.base.ledger.count fun c => { c with iterations := c.iterations + 1 }
  obtain ⟨hchild, hmemo⟩ := expand_chained (l := counted) chaining.memo length
  let q : Listing := ⟨{ p.base with
    ledger := (Search.expand loopSetting counted (chained length)).2.spend
      (Search.passEffort + Search.childrenEffort [chained (length + 1)])
    opened := behind }, p.made⟩
  have hadvance : p.advance loopSetting (chained length) behind = q.takeIn (chained (length + 1)) := by
    rw [Listing.advance]
    simp only
    rw [hchild]
    rfl
  have hopen : Search.hasPending (chained (length + 1)) = true := by
    obtain ⟨before, hchain, -, -⟩ := chain_eq_append 1 (length + 1)
    simp [chained, hchain, Search.hasPending]
  have hunknown : q.isKnown (chained (length + 1)) = false := by
    refine List.any_eq_false.2 fun solution hsolution hlike => ?_
    have hsame := Search.length_eq_of_looksLike hlike
    have hshort := chaining.short solution hsolution
    rw [length_chained] at hsame
    omega
  obtain ⟨pruned, hledger⟩ := Listing.exists_ledger_foldl [chained (length + 1)] q
  rw [hadvance]
  refine ⟨?_, ?_, ?_⟩
  · change ([chained (length + 1)].foldl Listing.takeIn q).base.ledger.memo = _
    rw [hledger]
    exact hmemo.trans chaining.memo
  · rcases q.takeIn_cases (chained (length + 1)) with ⟨hknown, -⟩ | ⟨-, hq, -⟩ | ⟨hclosed, -⟩
    · simp [hunknown] at hknown
    · rw [hq, Listing.waiting, ← hbehind, List.nil_append]
    · simp [hopen] at hclosed
  · rw [Listing.made_takeIn, List.forall_mem_cons]
    exact ⟨by rw [length_chained], fun solution h => Nat.le_succ_of_le (chaining.short solution h)⟩

/-- A search on a chain does not come to its end. -/
private theorem run_chaining {p : Listing} {length : Nat} (chaining : Chaining p length)
    (passes : Nat) : (Listing.run loopSetting false none passes p).1 = false := by
  induction passes generalizing p length with
  | zero => rfl
  | succ passes ih =>
    cases hnext : p.base.next? false with
    | none =>
      have hempty := Listing.waiting_eq_nil hnext
      simp [chaining.waiting] at hempty
    | some entry =>
      rw [Listing.run_succ_of_next rfl hnext]
      exact ih (chaining.advance hnext)

/-- With `p/1` memoized a search for `p(1)` does not come to its end. -/
private theorem found_loopMemoized (passes : Nat) (ambient : Ambient) :
    (loopMemoized.searchWithin none passes (unaryAt "p" 1) false ambient).2.found = none := by
  have hended : (loopMemoized.listing none passes (unaryAt "p" 1) false ambient).1 = false := by
    cases passes with
    | zero => rfl
    | succ passes =>
      let start : Listing :=
        .start ⟨loopMemoized.table.memo, ambient, 0, .zero⟩ (unaryAt queryFunctor 1)
      have hnext : start.base.next? false =
          some ([Search.Goal.pending 0 (unaryAt queryFunctor 1)], ⟨[], []⟩) := rfl
      have hmade : (start.advance loopSetting
          [Search.Goal.pending 0 (unaryAt queryFunctor 1)] ⟨[], []⟩).made =
            [chained 0, [Search.Goal.pending 0 (unaryAt queryFunctor 1)]] := by
        with_unfolding_all rfl
      have hchaining : Chaining (start.advance loopSetting
          [Search.Goal.pending 0 (unaryAt queryFunctor 1)] ⟨[], []⟩) 0 :=
        ⟨by with_unfolding_all rfl, by with_unfolding_all rfl, by rw [hmade]; decide⟩
      have hrun := run_chaining hchaining passes
      rwa [← Listing.run_succ_of_next rfl hnext] at hrun
  rw [found_eq (by decide)]
  generalize loopMemoized.listing none passes (unaryAt "p" 1) false ambient = result at hended
  obtain ⟨ended, p⟩ := result
  obtain rfl : ended = false := hended
  rfl

/-- The memo makes a search endless: the goals that are kept for it make each solution differ from
the one before, which would look alike without them. -/
theorem exists_endless_memoized :
    ¬ ∀ (plain memoized : Engine) (goal : Fact), plain.Reachable → memoized.Reachable →
      memoized.registry = plain.registry → memoized.clauses = plain.clauses →
      plain.table.memo.enabled = [] → memoized.table.memo.tries = [] → ∀ (ambient : Ambient),
      (∃ passes facts, (plain.searchWithin none passes goal false ambient).2.found = some facts) →
        ∃ passes facts,
          (memoized.searchWithin none passes goal false ambient).2.found = some facts := by
  intro h
  have hfound : (loop.searchWithin none 3 (unaryAt "p" 1) false default).2.found = some [] := by
    rw [found_eq (by decide)]
    with_unfolding_all rfl
  obtain ⟨passes, facts, hends⟩ := h loop loopMemoized (unaryAt "p" 1)
    (reachableBy_after fun _ _ _ => trivial) (reachableBy_after fun _ _ _ => trivial)
    (by with_unfolding_all rfl) (by with_unfolding_all rfl) (by with_unfolding_all rfl)
    (by with_unfolding_all rfl) default ⟨3, [], hfound⟩
  rw [found_loopMemoized] at hends
  exact absurd hends (by simp)

end Engine

end Horn
