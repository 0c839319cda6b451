import Horn.Proofs.Search.Descendants
import Horn.Proofs.Search.Waiting

/-!
What compaction keeps.

Among all goals of a lineage a goal `IsNeeded` if it stands for the query or is open, or if it is a goal of a
memoized predicate and a goal below it is open. Everything that is needed is kept, and all that is kept is
needed but for the goals that were overtaken: `Lineage.mem_kept` and `Lineage.isNeeded`. So a solution
without open goals has the query as its only goal: `Lineage.hasPending_eq_false_iff`.
-/

set_option autoImplicit false
set_option relaxedAutoImplicit false

namespace Horn.Search

variable {s : Setting} {memoized : String → Bool} {root : Fact} {steps : List Step}
  {all kept goals before behind : List Located} {g d : Located}

/-! ### Discharged goals -/

theorem pendingBelow_cons (depth : Nat) (first : Goal) (rest : Solution) :
    pendingBelow depth (first :: rest) =
      (decide (depth < first.depth) && (!first.resolved || pendingBelow depth rest)) := by
  rw [pendingBelow, List.takeWhile_cons]
  cases decide (depth < first.depth) <;> rfl

/-- An open goal that is seen from a goal above is still seen when discharged goals are dropped. -/
theorem pendingBelow_dropDischarged {depth : Nat} {solution : Solution}
    (h : pendingBelow depth solution = true) :
    pendingBelow depth (dropDischarged memoized solution) = true := by
  induction solution with
  | nil => exact h
  | cons first rest ih =>
    rw [pendingBelow_cons, Bool.and_eq_true, Bool.or_eq_true] at h
    rw [dropDischarged]
    cases hfirst : first.resolved with
    | false => simp [pendingBelow_cons, h.1, hfirst]
    | true =>
      have hrest := ih (h.2.resolve_left (by simp [hfirst]))
      split
      · simp [pendingBelow_cons, h.1, hrest]
      · exact hrest

namespace Located

/-- A discharged goal that is kept is awaited among the goals that are kept. -/
theorem isAwaited_of_dropDischarged (heq : dropDischarged memoized goals = before ++ g :: behind)
    (closed : g.isOpen = false) : isAwaited memoized g.goal (behind.map goal) = true := by
  induction goals generalizing before with
  | nil => simp [dropDischarged] at heq
  | cons first goals ih =>
    rw [dropDischarged] at heq
    split at heq
    · rename_i hkept
      cases before with
      | nil =>
        obtain ⟨rfl, rfl⟩ := List.cons.inj heq
        rw [closed, Bool.false_or, isAwaited, Bool.and_eq_true] at hkept
        rw [isAwaited, Bool.and_eq_true, map_goal_dropDischarged]
        exact ⟨hkept.1, pendingBelow_dropDischarged hkept.2⟩
      | cons _ before =>
        obtain ⟨-, hrest⟩ := List.cons.inj heq
        exact ih hrest
    · exact ih heq

/-- A goal that has to be kept among all goals: it stands for the query, it is open, or it is a goal of a
memoized predicate and a goal is open below it. -/
def IsNeeded (memoized : String → Bool) (all : List Located) (d : Located) : Prop :=
  d.path = [] ∨ d.isOpen = true ∨
    (memoized d.goal.key = true ∧ ∃ u ∈ all, u.isOpen = true ∧ u.DescendsFrom d)

instance (memoized : String → Bool) (all : List Located) (d : Located) :
    Decidable (d.IsNeeded memoized all) :=
  inferInstanceAs (Decidable (d.path = [] ∨ d.isOpen = true ∨
    (memoized d.goal.key = true ∧ ∃ u ∈ all, u.isOpen = true ∧ u.DescendsFrom d)))

end Located

/-- A goal of a memoized predicate is kept as long as a goal is open below it. -/
theorem InTree.mem_compact (h : InTree s goals) (hd : d ∈ goals) (key : memoized d.goal.key = true)
    {u : Located} (hu : u ∈ goals) (opened : u.isOpen = true) (descends : u.DescendsFrom d) :
    d ∈ Located.compact memoized goals := by
  cases goals with
  | nil => exact hd
  | cons query goals =>
    rcases List.mem_cons.1 hd with rfl | hd
    · exact List.mem_cons_self
    · obtain ⟨before, behind, rfl⟩ := List.append_of_mem hd
      rw [← List.cons_append] at h hu
      refine List.mem_cons_of_mem _ (Located.mem_dropDischarged.2 ⟨before, behind, rfl, .inr ?_⟩)
      rw [isAwaited, Bool.and_eq_true]
      exact ⟨key, h.pendingBelow_of_descendsFrom hu descends opened⟩

namespace Lineage

/-- Every discharged goal but the one of the query is awaited where it stands. -/
theorem isAwaited (h : Lineage s memoized root steps all kept) (heq : kept = before ++ g :: behind)
    (first : before ≠ []) (closed : g.isOpen = false) :
    Search.isAwaited memoized g.goal (behind.map Located.goal) = true := by
  obtain ⟨query, before, rfl⟩ := List.exists_cons_of_ne_nil first
  cases h with
  | start => simp at heq
  | expand parent x made =>
    obtain ⟨old, goals, rfl, -⟩ := parent.exists_query
    exact Located.isAwaited_of_dropDischarged (List.cons.inj heq).2 closed

/-- What has an open goal below it after an expansion had one before, or was expanded. -/
private theorem mem_kept_of_settle (h : Lineage s memoized root steps all kept)
    (x : Expansion s memoized kept) (ih : ∀ d ∈ all, d.IsNeeded memoized all → d ∈ kept) (hd : d ∈ all)
    (key : memoized d.goal.key = true) {u : Located} (hu : u ∈ x.splice all) (opened : u.isOpen = true)
    (descends : u.DescendsFrom d) : d ∈ kept := by
  have hgoal : x.goal ∈ all := h.keeps.goal_mem x
  rcases (x.mem_splice h.keeps.inTree hgoal).1 hu with ⟨old, hold, rfl⟩ | hchild
  · refine ih d hd (.inr (.inr ⟨key, old, hold, (Located.isOpen_settle.1 opened).1, ?_⟩))
    simpa [Located.DescendsFrom] using descends
  · obtain ⟨number, _, rfl⟩ := Located.mem_children.1 hchild
    have hunder : d.path <+: x.goal.path := (List.prefix_concat_iff.1 descends.1).resolve_left
      fun heq => descends.2 heq.symm
    by_cases heq : d.path = x.goal.path
    · rw [h.keeps.inTree.eq_of_path_eq hd hgoal heq]
      exact x.goal_mem
    · exact ih d hd (.inr (.inr ⟨key, x.goal, hgoal, x.isOpen_goal, hunder, Ne.symm heq⟩))

/-- What is needed is kept. -/
theorem mem_kept (h : Lineage s memoized root steps all kept) :
    ∀ d ∈ all, d.IsNeeded memoized all → d ∈ kept := by
  induction h with
  | start => exact fun d hd _ => hd
  | @expand steps all kept child parent x made ih =>
    intro d' hd' hneeded
    have hnext := parent.expand x made
    rcases hneeded with hquery | hopen | ⟨hkey, u, hu, hopen, hdescends⟩
    · obtain ⟨query, goals, heq, hpath, -⟩ := hnext.exists_query
      rw [heq]
      have hmem : query ∈ x.splice all := hnext.keeps.sublist.subset (by simp [heq])
      rw [hnext.keeps.inTree.eq_of_path_eq hd' hmem (hquery.trans hpath.symm)]
      exact List.mem_cons_self
    · exact hnext.keeps.mem_kept hd' hopen
    · have hkept : u ∈ x.splice kept :=
        (Located.compact_sublist _ _).subset (hnext.keeps.mem_kept hu hopen)
      rcases (x.mem_splice parent.keeps.inTree (parent.keeps.goal_mem x)).1 hd' with ⟨d, hd, rfl⟩ | hchild
      · rw [Located.key_settle] at hkey
        have hold : d ∈ kept := parent.mem_kept_of_settle x ih hd hkey hu hopen
          (by simpa [Located.DescendsFrom] using hdescends)
        have hsettled : d.settle x.bindings x.goal.path ∈ x.splice kept :=
          (x.mem_splice parent.keeps.inTree_kept x.goal_mem).2 (.inl ⟨d, hold, rfl⟩)
        exact (parent.keeps.inTree_splice_kept x).mem_compact hsettled (by rwa [Located.key_settle]) hkept
          hopen hdescends
      · refine hnext.keeps.mem_kept hd' ?_
        obtain ⟨_, _, rfl⟩ := Located.mem_children.1 hchild
        rfl

/-- What is kept is needed, unless it was overtaken. -/
theorem isNeeded (h : Lineage s memoized root steps all kept) (hd : d ∈ kept)
    (free : ¬ Overtaken s steps d) : d.IsNeeded memoized all := by
  by_cases hquery : d.path = []
  · exact .inl hquery
  cases hopen : d.isOpen with
  | true => exact .inr (.inl hopen)
  | false =>
    obtain ⟨u, hu, huopen, hdescends⟩ := h.isAside.2 d hd free hopen hquery
    obtain ⟨before, behind, heq⟩ := List.append_of_mem hd
    have hbefore : before ≠ [] := by
      rintro rfl
      obtain ⟨query, goals, hkept, hpath, -⟩ := h.exists_query
      rw [heq] at hkept
      exact hquery ((List.cons.inj hkept).1 ▸ hpath)
    have hawaited := h.isAwaited heq hbefore hopen
    exact .inr (.inr ⟨(Bool.and_eq_true_iff.1 hawaited).1, u, h.keeps.sublist.subset hu, huopen, hdescends⟩)

/-- A solution is without open goals once only the goal of the query is left. -/
theorem hasPending_eq_false_iff (h : Lineage s memoized root steps all kept) (begun : steps ≠ []) :
    hasPending (kept.map Located.goal) = false ↔ kept.length = 1 := by
  obtain ⟨query, goals, rfl, -, -, hquery⟩ := h.exists_query
  have hclosed : query.isOpen = false := Bool.eq_false_iff.2 (mt hquery.1 begun)
  have hany : hasPending ((query :: goals).map Located.goal) = goals.any Located.isOpen := by
    rw [List.map_cons, hasPending, List.any_cons, List.any_map]
    exact (congrArg (· || _) hclosed).trans (Bool.false_or _)
  rw [hany, List.length_cons, Nat.add_eq_right, List.length_eq_zero_iff]
  refine ⟨fun hnone => ?_, fun heq => by rw [heq]; rfl⟩
  cases goals with
  | nil => rfl
  | cons g behind =>
    rw [List.any_cons, Bool.or_eq_false_iff] at hnone
    have hawaited := h.isAwaited (List.singleton_append (l := g :: behind)).symm (by simp) hnone.1
    have hrun := (Bool.and_eq_true_iff.1 hawaited).2
    rw [Located.pendingBelow_eq_any] at hrun
    obtain ⟨d, hd, hopen⟩ := List.any_eq_true.1 hrun
    have hbehind : behind.any Located.isOpen = true :=
      List.any_eq_true.2 ⟨d, (List.takeWhile_sublist _).subset hd, hopen⟩
    rw [hnone.2] at hbehind
    cases hbehind

/-- What is kept is what is needed, in order, unless some of it was overtaken. -/
theorem kept_eq_filter (h : Lineage s memoized root steps all kept)
    (free : ∀ d ∈ kept, ¬ Overtaken s steps d) : kept = all.filter fun d => d.IsNeeded memoized all := by
  have hsorted := h.keeps.inTree.sorted
  have hnodup : all.Nodup := by
    refine hsorted.imp fun hlt heq => ?_
    rw [heq] at hlt
    exact List.lt_irrefl _ hlt
  have hperm : kept.Perm (all.filter fun d => d.IsNeeded memoized all) := by
    rw [List.perm_ext_iff_of_nodup (hnodup.sublist h.keeps.sublist) (hnodup.filter _)]
    intro d
    rw [List.mem_filter, decide_eq_true_eq]
    exact ⟨fun hd => ⟨h.keeps.sublist.subset hd, h.isNeeded hd (free d hd)⟩, fun hd => h.mem_kept d hd.1 hd.2⟩
  refine hperm.eq_of_pairwise ?_ (hsorted.sublist h.keeps.sublist) (hsorted.filter _)
  exact fun _ _ _ _ hlt hgt => absurd hgt (List.lt_asymm hlt)

/-- A solution without open goals is an answer. -/
theorem isAnswer (h : Lineage s memoized root steps all kept)
    (closed : hasPending (kept.map Located.goal) = false) :
    Search.isAnswer (kept.map Located.goal) = true := by
  cases h with
  | start => simp [hasPending, Located.query, Goal.pending] at closed
  | expand parent x made =>
    rw [x.map_goal_compact parent.keeps.inTree_kept made] at closed ⊢
    exact (x.child_eq made).2.resolve_left (by simp [closed])

theorem steps_ne_nil (h : Lineage s memoized root steps all kept)
    (closed : hasPending (kept.map Located.goal) = false) : steps ≠ [] := by
  rintro rfl
  cases h
  simp [hasPending, Located.query, Goal.pending] at closed

end Lineage

/-! ### Open and finished solutions -/

/-- What waits has an open goal, and what is finished has none. -/
structure Listing.IsFiled (p : Listing) : Prop where
  waiting : ∀ a ∈ p.waiting, hasPending a = true
  finished : ∀ a ∈ p.base.finished, hasPending a = false

namespace Listing

variable {p : Listing}

theorem IsFiled.takeIn (h : p.IsFiled) (child : Solution) : (p.takeIn child).IsFiled := by
  rcases p.takeIn_cases child with ⟨-, hwaiting, hfinished⟩ | ⟨hopen, hwaiting, hfinished⟩ |
    ⟨hclosed, hwaiting, hfinished⟩
  · constructor
    · rw [hwaiting]
      exact h.waiting
    · rw [hfinished]
      exact h.finished
  · constructor
    · rw [hwaiting]
      exact List.forall_mem_append.2 ⟨h.waiting, List.forall_mem_singleton.2 hopen⟩
    · rw [hfinished]
      exact h.finished
  · constructor
    · rw [hwaiting]
      exact h.waiting
    · rw [hfinished]
      exact List.forall_mem_cons.2 ⟨hclosed, h.finished⟩

/-- A run puts every solution where it belongs. -/
theorem IsFiled.run (h : p.IsFiled) {stopEarly : Bool} {deadline : Option Nat} (passes : Nat) :
    (run s stopEarly deadline passes p).2.IsFiled := by
  refine run_induction h (fun p solution behind hp next => ?_) passes
  refine advance_induction ⟨fun a ha => hp.waiting a ?_, hp.finished⟩ fun q child _ hq => hq.takeIn child
  rw [waiting_of_next? next]
  exact List.mem_cons_of_mem _ ha

end Listing

end Horn.Search
