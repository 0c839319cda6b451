import Horn.Proofs.Engine.Asserted
import Horn.Proofs.Engine.Restoration
import Horn.Proofs.Search.FactTable

/-!
Searches of an engine over facts.

If all clauses of a predicate are ground facts and it is not memoized, a search has exactly the facts that
the goal selects, whatever else the table holds: `Engine.found_selected`. The predicate of the query has to
be free of recorded tuples, though. It can be memoized like any other, and where a body calls it, tuples of
one goal are recorded and answer another.
-/

set_option autoImplicit false
set_option relaxedAutoImplicit false

namespace Horn.Engine

open Builtin (Ambient Registry)
open Search (Selected)

variable {e : Engine} {goal : Fact}

/-- The clauses of the active table with the predicate of a goal. -/
def clausesOf (e : Engine) (goal : Fact) : List Clause :=
  e.clauses.filter fun c => c.key = goal.key

private theorem candidates_goal (unreserved : goal.functor ≠ queryFunctor) :
    (e.setting goal).program.candidates goal.key = e.clausesOf goal := by
  have hquery : (queryClause goal).key ≠ goal.key := fun hkey =>
    unreserved (predicateKey_inj hkey).1.symm
  rw [candidates_setting, List.filter_cons_of_neg (by simpa using hquery), clausesOf]

private theorem tabulates (reachable : e.Reachable)
    (named : ∀ name ∈ goal.varNames, ∃ text, name = .named text)
    (user : e.registry.contains goal.functor goal.arity = false)
    (unreserved : goal.functor ≠ queryFunctor)
    (facts : ∀ c ∈ e.clausesOf goal, c.head.isGround = true ∧ c.body = []) :
    Search.Tabulates (e.setting goal) queryFunctor goal := by
  have hcandidates := candidates_goal (e := e) unreserved
  refine ⟨Builtin.Registry.contains_queryFunctor _ _, user, named, ?_, ?_, ?_, ?_⟩
  · rw [candidates_setting, List.filter_cons_of_pos (by simp; rfl), List.filter_eq_nil_iff.2]
    · rfl
    · intro d hd hkey
      exact reachable.head_ne d hd (predicateKey_inj (of_decide_eq_true hkey)).1
  · rw [hcandidates]
    intro c hc
    obtain ⟨hground, hbody⟩ := facts c hc
    obtain ⟨values, hvalues⟩ := Fact.isGround_iff_literals?.1 hground
    have hhead := Fact.literals?_eq_some_iff.1 hvalues
    have hkey : c.key = goal.key := of_decide_eq_true (List.mem_filter.1 hc).2
    obtain ⟨hfunctor, harity⟩ := predicateKey_inj hkey
    refine ⟨values, hfunctor ▸ hhead, ?_, hbody⟩
    rw [← harity, hhead, Fact.arity_ofLiterals]
  · rw [hcandidates]
    have hpairwise := reachable.program_reachable.isDistinct.filter fun c => c.key = goal.key
    refine List.Pairwise.imp_of_mem ?_ hpairwise
    intro c d hc hd hdistinct
    refine Bool.eq_false_iff.2 fun hequal => hdistinct ?_
    refine Clause.recognizes_of_alikeAll ?_
    have hempty : c.facts = [c.head] ∧ d.facts = [d.head] :=
      ⟨congrArg _ (facts c hc).2, congrArg _ (facts d hd).2⟩
    rw [hempty.1, hempty.2]
    exact hequal
  · rw [hcandidates]
    change (e.table.program.pushFront (queryClause goal)).defines goal.key = true ↔ _
    rw [Program.defines_pushFront, ← candidates_goal unreserved, candidates_setting, ne_eq,
      List.filter_eq_nil_iff]
    simp only [not_forall, exists_prop, decide_eq_true_eq, not_not]
    rfl

private def pair (functor : String) (a b : Int64) : Fact :=
  ⟨functor, [.lit (.integer a), .lit (.integer b)]⟩

/-- The goal `p(X > 1, X)`. -/
private def diagonal : Fact :=
  ⟨"p", [.var ⟨.named "X", some ⟨.gt, .integer 1⟩⟩, .var ⟨.named "X", none⟩]⟩

/-- Facts of `p/2`, between which there is a rule without end for another predicate. -/
def pairs : Engine :=
  after [.assert (pair "p" 1 1) [], .assert (pair "p" 3 3) [], .assert (unaryOpen "q") [unaryOpen "q"],
    .assert (pair "p" 2 3) [], .assert (pair "p" 2 2) []]

/-- A rule that calls the predicate of queries, which is memoized: the search records `$query(1)`. -/
private def recordingHistory : List Operation :=
  [.assert (unaryAt "q" 1) [], .assert (unaryAt "q" 2) [unaryAt queryFunctor 1],
    .enableMemo "$query/1", .search none 9 (unaryOpen "q") false default]

/-- After that a fact `p(5)` is asserted. -/
def recording : Engine :=
  after (recordingHistory ++ [.assert (unaryAt "p" 5) []])

private theorem table_recording : recording.table =
    ⟨.ofClauses #[.once (unaryAt "q" 1) [], .once (unaryAt "q" 2) [unaryAt queryFunctor 1],
      .once (unaryAt "p" 5) []], (⟨["$query/1"], []⟩ : Memo).record "$query/1" [.integer 1]⟩ := by
  rw [recording, after_concat]
  change (Engine.perform ((after (recordingHistory.take 3)).searchWithin none 9 (unaryOpen "q") false
    default).1 _).table = _
  rw [searchWithin_fst (by decide)]
  with_unfolding_all rfl

private def query1 : Search.Solution :=
  [.pending 0 (unaryAt queryFunctor 1)]

/-- The query for `p(1)` is answered from the memo, though `p(5)` is the only fact. -/
private theorem expand_query1 {s : Search.Setting} {l : Search.Ledger} (registry : s.registry = ⟨20⟩)
    (memo : l.memo = (⟨["$query/1"], []⟩ : Memo).record "$query/1" [.integer 1]) :
    (Search.expand s l query1).1 = [[⟨unaryAt queryFunctor 1, true, 0⟩]] := by
  obtain ⟨_, program⟩ := s
  obtain rfl : _ = _ := registry
  have hkey : (unaryAt queryFunctor 1).key = "$query/1" := by with_unfolding_all rfl
  have hhit : Search.cachedTuple? l (unaryAt queryFunctor 1) = some [.integer 1] := by
    rw [Search.cachedTuple?, hkey, memo]
    exact Memo.lookup_record_self _ "$query/1" [.integer 1]
  have hgoal : Search.expand ⟨⟨20⟩, program⟩ l query1 =
      Search.expandGoal ⟨⟨20⟩, program⟩ l query1 0 (unaryAt queryFunctor 1) := by
    with_unfolding_all rfl
  rw [hgoal, Search.expandGoal, hhit]
  change [Search.attempt ⟨⟨20⟩, program⟩ l.memo.isEnabled query1 0 (unaryAt queryFunctor 1)
    (Fact.ofLiterals queryFunctor [.integer 1]) []].filterMap Search.Attempt.child? = _
  rw [memo]
  with_unfolding_all rfl

private theorem found_recording :
    (recording.searchWithin none 9 (unaryAt "p" 1) false default).2.found = some [unaryAt "p" 1] := by
  let p : Search.Listing := .start ⟨(⟨["$query/1"], []⟩ : Memo).record "$query/1" [.integer 1],
    default, 0, .zero⟩ (unaryAt queryFunctor 1)
  have hstart : p.base.next? false = some (query1, ⟨[], []⟩) := by
    with_unfolding_all rfl
  have hchildren : (Search.expand (recording.setting (unaryAt "p" 1)) (p.base.ledger.count fun c =>
      { c with iterations := c.iterations + 1 }) query1).1 =
        [[⟨unaryAt queryFunctor 1, true, 0⟩]] :=
    expand_query1 (registry_after _) rfl
  rw [found_eq (by decide), listing, table_recording]
  change listed? _ _ (Search.Listing.run _ _ _ _ p) = _
  rw [Search.Listing.run_succ_of_next rfl hstart, Search.Listing.advance]
  simp only [hchildren]
  generalize Search.Ledger.spend _ _ = l
  with_unfolding_all rfl

end Horn.Engine
