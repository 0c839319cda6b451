import Horn.Proofs.Engine.Soundness

/-!
What the memo of an engine holds after a history.

Retractions do not touch the memo. As long as it is empty whenever a clause is removed, it never holds
what the clauses of the table do not yield: `Engine.ReachableBy.memo_holds`, and then every search
finds only what follows from the clauses that are there. Without that proviso it does not.
-/

set_option autoImplicit false
set_option relaxedAutoImplicit false

namespace Horn

open Builtin (Registry Ambient)

namespace Engine

variable {e : Engine} {Allowed : Engine → Operation → Prop}

/-- What the facts of a program yield, more facts yield too. -/
private theorem follows_of_sublist {p q : Program} {r : Registry} (h : p.facts ⊆ q.facts)
    {functor : String} {values : List Literal}
    (follows : Follows r p.clauses.toList functor values) :
    Follows r q.clauses.toList functor values :=
  follows.of_facts fun _ hc => Program.exists_clause_of_mem_facts (h (Program.mem_facts_of_mem hc))

/-- As long as clauses are removed only while the memo is empty, what the memo holds follows from
the clauses that are in the table. -/
theorem ReachableBy.memo_holds (reachable : ReachableBy IsTidy e) :
    e.table.memo.Holds (Follows e.registry e.clauses) := by
  refine reachable.table_induction
    (fun r t => t.memo.Holds (Follows r t.program.clauses.toList))
    (fun _ => Memo.holds_of_tries_eq_nil rfl) ?_
  intro e op table before tidy ih remakes
  cases remakes with
  | @asserted head body _ =>
    refine ih.mono fun functor values => follows_of_sublist ?_
    rcases Program.facts_assert e.table.program head body with facts | facts
    · exact facts ▸ List.Subset.refl _
    · exact facts ▸ List.subset_append_left _ _
  | @retracted head body program outcome done =>
    cases outcome with
    | removed => exact Memo.holds_of_tries_eq_nil (tidy.2 ⟨program, done⟩)
    | decremented count =>
      refine ih.mono fun functor values => follows_of_sublist ?_
      exact Program.facts_of_decremented done ▸ List.Subset.refl _
  | retractedAt done => exact Memo.holds_of_tries_eq_nil (tidy.2 ⟨_, _, done⟩)
  | forgot fewer => exact fun key trie values htrie => ih key trie values (fewer key trie htrie).1
  | searched unreserved =>
    rw [Program.toList_popFront_pushFront]
    have hbodies := before.forall_clauses (P := fun _ body => ∀ g ∈ body, g.functor ≠ queryFunctor)
      fun _ _ _ allowed _ => allowed.1
    exact (sound_runWithin hbodies ih unreserved _ _ _ _).memo

/-- The memos of a reachable engine have tuples of memoized predicates only. -/
theorem ReachableBy.memos_confined (reachable : ReachableBy Allowed e) :
    ∀ entry ∈ e.tables, entry.2.memo.IsConfined := by
  refine reachable.tables_induction (fun _ t => t.memo.IsConfined)
    (fun _ key trie htrie => absurd htrie (by rintro ⟨⟩)) ?_
  intro e op table _ _ ih remakes
  cases remakes with
  | asserted _ => exact ih
  | retracted _ => exact ih
  | retractedAt _ => exact ih
  | forgot fewer =>
    intro key trie htrie
    obtain ⟨hold, henabled⟩ := fewer key trie htrie
    exact henabled (ih key trie hold)
  | searched _ =>
    rw [runWithin_eq, Search.Listing.progress_outcome]
    exact Search.Listing.confined_run ih

theorem ReachableBy.memo_confined (reachable : ReachableBy Allowed e) : e.table.memo.IsConfined :=
  @forall_table e (fun t => t.memo.IsConfined) reachable.memos_confined fun _ _ => (nomatch ·)

/-- Whatever was asserted, recorded and retracted before, what a search finds follows from the
clauses that are in the active table, provided that clauses were removed only while the memo of their
table was empty. -/
theorem found_follows (reachable : ReachableBy IsTidy e) (goal : Fact) {deadline : Option Nat}
    {passes : Nat} {stopEarly : Bool} {ambient : Ambient} {facts : List Fact}
    (found : (e.searchWithin deadline passes goal stopEarly ambient).2.found = some facts) :
    ∀ f ∈ facts, ∃ us, (f == Fact.ofLiterals goal.functor us) = true ∧
      Follows e.registry e.clauses goal.functor us := by
  by_cases hreserved : goal.functor = queryFunctor
  · rw [searchWithin, if_pos hreserved] at found
    obtain rfl := Option.some.inj found
    simp
  have huncalled := reachable.forall_clauses (P := fun _ body => ∀ g ∈ body, g.functor ≠ queryFunctor)
    fun _ _ _ allowed _ => allowed.1
  have hsound := sound_runWithin huncalled reachable.memo_holds hreserved deadline passes stopEarly
    ambient
  obtain rfl := answers_of_found hreserved found
  intro f hf
  obtain ⟨values, hvalues, rfl⟩ := List.mem_map.1 hf
  obtain ⟨us, hus, hgoal⟩ :=
    follows_of_query reachable.head_ne huncalled hreserved (hsound.answers hvalues).1
  exact ⟨us, by rwa [Fact.beq_ofLiterals], hgoal⟩

/-- Two facts `q(1)` and `q(2)` of a memoized predicate, and a search that records the first. -/
private def recordedHistory : List Operation :=
  [.assert (unaryAt "q" 1) [], .assert (unaryAt "q" 2) [], .enableMemo "q/1",
    .search none 9 (unaryAt "q" 1) false default]

/-- The engine with some facts of `q/1` and a memo. -/
def holding (values : List Int64) (memo : Memo) (stats : Search.Stats) : Engine :=
  { Engine.new default with
    tables := [(defaultTable,
      ⟨.ofClauses (values.map fun v => Clause.once (unaryAt "q" v) []).toArray, memo⟩)]
    lastStats := stats }

private def recordedMemo : Memo :=
  (⟨["q/1"], []⟩ : Memo).record "q/1" [.integer 1]

private theorem after_recordedHistory : ∃ stats, after recordedHistory = holding [1, 2] recordedMemo stats := by
  change ∃ stats, ((after (recordedHistory.take 3)).searchWithin none 9 (unaryAt "q" 1) false default).1 = _
  rw [searchWithin_fst (by decide)]
  exact ⟨_, by with_unfolding_all rfl⟩

private theorem retract_holding (memo : Memo) (stats : Search.Stats) :
    (holding [1, 2] memo stats).perform (.retract (unaryAt "q" 1) []) = holding [2] memo stats := by
  with_unfolding_all rfl

/-- The recorded fact is retracted after the memo is cleared. -/
def cleared : Engine :=
  after (recordedHistory ++ [.clearMemo] ++ [.retract (unaryAt "q" 1) []])

private theorem cleared_eq : ∃ stats, cleared = holding [2] ⟨["q/1"], []⟩ stats := by
  obtain ⟨stats, h⟩ := after_recordedHistory
  refine ⟨stats, ?_⟩
  rw [cleared, after_concat, after_concat, h]
  exact retract_holding _ _

private theorem reachable_cleared : ReachableBy IsTidy cleared := by
  have hrecorded : ReachableBy IsTidy (after recordedHistory) := by
    refine reachableBy_after fun op hop e => ?_
    simp only [recordedHistory, List.mem_cons, List.not_mem_nil, or_false] at hop
    rcases hop with rfl | rfl | rfl | rfl <;> simp [IsTidy, Operation.IsPlain, Removes]
  have hcleared : ReachableBy IsTidy ((after recordedHistory).perform .clearMemo) :=
    hrecorded.perform ⟨trivial, False.elim⟩
  rw [cleared, after_concat, after_concat]
  refine hcleared.perform ⟨trivial, fun _ => ?_⟩
  change ((after recordedHistory).withMemo _).table.memo.tries = []
  rw [withMemo, table_withTable hrecorded.active_lt]
  rfl

theorem found_follows_cleared :
    (cleared.searchWithin none 9 (unaryOpen "q") false default).2.found = some [unaryAt "q" 2] ∧
      ∀ f ∈ [unaryAt "q" 2], ∃ us, (f == Fact.ofLiterals "q" us) = true ∧
        Follows cleared.registry cleared.clauses "q" us := by
  have hfound :
      (cleared.searchWithin none 9 (unaryOpen "q") false default).2.found = some [unaryAt "q" 2] := by
    obtain ⟨stats, h⟩ := cleared_eq
    rw [found_eq (by decide), h]
    change listed? _ _ ((holding [2] ⟨["q/1"], []⟩ .zero).listing _ _ _ _ _) = _
    with_unfolding_all rfl
  exact ⟨hfound, found_follows reachable_cleared (unaryOpen "q") hfound⟩

/-- The recorded fact is retracted and stays in the memo. -/
def outlived : Engine :=
  after (recordedHistory ++ [.retract (unaryAt "q" 1) []])

private theorem outlived_eq : ∃ stats, outlived = holding [2] recordedMemo stats := by
  obtain ⟨stats, h⟩ := after_recordedHistory
  refine ⟨stats, ?_⟩
  have : outlived = (after recordedHistory).perform (.retract (unaryAt "q" 1) []) :=
    after_concat recordedHistory _
  rw [this]
  rw [h]
  exact retract_holding recordedMemo stats

private def q1Solution : Search.Solution :=
  [⟨unaryAt queryFunctor 1, true, 0⟩, ⟨unaryAt "q" 1, false, 1⟩]

private def q1Setting : Search.Setting :=
  ⟨⟨20⟩, (Program.ofClauses #[Clause.once (unaryAt "q" 2) []]).pushFront (queryClause (unaryAt "q" 1))⟩

/-- The goal `q(1)` is answered from the memo, though `q(2)` is the only clause. -/
private theorem expand_recorded {l : Search.Ledger} (memo : l.memo = recordedMemo) :
    (Search.expand q1Setting l q1Solution).1 = [[⟨unaryAt queryFunctor 1, true, 0⟩]] := by
  have hkey : (unaryAt "q" 1).key = "q/1" := by with_unfolding_all rfl
  have hhit : Search.cachedTuple? l (unaryAt "q" 1) = some [.integer 1] := by
    rw [Search.cachedTuple?, hkey, memo]
    exact Memo.lookup_record_self _ "q/1" [.integer 1]
  have hgoal : Search.expand q1Setting l q1Solution =
      Search.expandGoal q1Setting l q1Solution 1 (unaryAt "q" 1) := by with_unfolding_all rfl
  rw [hgoal, Search.expandGoal, hhit]
  change [Search.attempt q1Setting l.memo.isEnabled q1Solution 1 (unaryAt "q" 1)
    (Fact.ofLiterals "q" [.integer 1]) []].filterMap Search.Attempt.child? = _
  rw [memo]
  with_unfolding_all rfl

private theorem found_outlived :
    (outlived.searchWithin none 9 (unaryAt "q" 1) false default).2.found = some [unaryAt "q" 1] := by
  obtain ⟨stats, h⟩ := outlived_eq
  rw [found_eq (by decide), h]
  change listed? _ _ (Search.Listing.run q1Setting false none 9
    (.start ⟨recordedMemo, default, 0, .zero⟩ (unaryAt queryFunctor 1))) = _
  have hstart : (Search.Listing.start ⟨recordedMemo, default, 0, .zero⟩
      (unaryAt queryFunctor 1)).base.next? false =
        some ([Search.Goal.pending 0 (unaryAt queryFunctor 1)], ⟨[], []⟩) := by
    with_unfolding_all rfl
  rw [Search.Listing.run_succ_of_next rfl hstart]
  generalize hp : Search.Listing.advance q1Setting _ _ _ = p
  have hnext : p.base.next? false = some (q1Solution, ⟨[], []⟩) := by
    subst hp
    with_unfolding_all rfl
  have hbefore : p.base.finished = [] ∧
      p.made = [q1Solution, [Search.Goal.pending 0 (unaryAt queryFunctor 1)]] := by
    subst hp
    constructor <;> with_unfolding_all rfl
  have hmemo : p.base.ledger.memo = recordedMemo := by
    subst hp
    with_unfolding_all rfl
  rw [Search.Listing.run_succ_of_next rfl hnext]
  have hchildren := expand_recorded
    (l := p.base.ledger.count fun c => { c with iterations := c.iterations + 1 }) hmemo
  rw [Search.Listing.advance]
  simp only [hchildren]
  generalize Search.Ledger.spend _ _ = l
  obtain ⟨base, made⟩ := p
  simp only at hbefore
  rw [hbefore.1, hbefore.2]
  with_unfolding_all rfl

/-- Retractions do not touch the memo, so without that proviso a search finds what no clause of the
table yields any more. -/
theorem exists_found_not_follows :
    ¬ ∀ (e : Engine), ReachableBy (fun _ op => op.IsPlain) e → ∀ (goal : Fact)
      (deadline : Option Nat) (passes : Nat) (stopEarly : Bool) (ambient : Ambient)
      (facts : List Fact),
        (e.searchWithin deadline passes goal stopEarly ambient).2.found = some facts →
          ∀ f ∈ facts, ∃ us, (f == Fact.ofLiterals goal.functor us) = true ∧
            Follows e.registry e.clauses goal.functor us := by
  intro h
  have hplain : ReachableBy (fun _ op => op.IsPlain) outlived := by
    refine reachableBy_after fun op hop e => ?_
    simp only [recordedHistory, List.cons_append, List.nil_append, List.mem_cons, List.not_mem_nil,
      or_false] at hop
    rcases hop with rfl | rfl | rfl | rfl | rfl <;> simp [Operation.IsPlain]
  obtain ⟨us, hus, hfollows⟩ := h outlived hplain _ _ _ _ _ _ found_outlived _ List.mem_cons_self
  have hone : ([Literal.integer 1] == us) = true := by
    rwa [← Fact.beq_ofLiterals "q"]
  have huser : outlived.registry.contains "q" us.length = false :=
    Registry.contains_eq_false (by decide) _ _
  obtain ⟨c, hc, θ, -, -, -, hvalues⟩ := hfollows.exists_clause huser
  obtain ⟨stats, heq⟩ := outlived_eq
  obtain rfl : c = Clause.once (unaryAt "q" 2) [] := by
    rw [heq] at hc
    exact List.mem_singleton.1 hc
  have hdiffer : ([Literal.integer 1] == [Literal.integer 2]) = true := BEq.trans hone hvalues
  exact absurd hdiffer (by decide)

end Engine

end Horn
