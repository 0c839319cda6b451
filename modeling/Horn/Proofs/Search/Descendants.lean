import Mathlib.Data.List.TakeWhile
import Horn.Proofs.Search.Lineage

/-!
What the depths of goals tell of descent.

The run of deeper goals behind a goal starts with the goals that descend from it, as `descendants_prefix`
says. Others join it if the goal was `Overtaken`: a built-in that it was expanded into waits for its inputs,
and meanwhile a goal behind it is expanded. `Lineage.isAside` and `deeperRun_eq` say that the run is exact
for all goals that were not overtaken.
-/

set_option autoImplicit false
set_option relaxedAutoImplicit false

namespace Horn.Search

variable {s : Setting} {memoized : String → Bool} {before behind goals : List Located} {g d : Located}

namespace Located

/-- The goals that descend from a goal, in order. -/
def descendants (g : Located) (goals : List Located) : List Located :=
  goals.filter fun d => d.DescendsFrom g

/-- The run of deeper goals right behind a goal. -/
def deeperRun (g : Located) (behind : List Located) : List Located :=
  behind.takeWhile fun d => g.goal.depth < d.goal.depth

theorem mem_descendants : d ∈ g.descendants goals ↔ d ∈ goals ∧ d.DescendsFrom g := by
  simp [descendants]

theorem pendingBelow_eq_any (g : Located) (behind : List Located) :
    pendingBelow g.goal.depth (behind.map goal) = (g.deeperRun behind).any isOpen := by
  rw [pendingBelow, hasPending, List.takeWhile_map, List.any_map]
  rfl

theorem DescendsFrom.length_lt (h : d.DescendsFrom g) : g.path.length < d.path.length :=
  lt_of_le_of_ne h.1.length_le fun heq => h.2 (h.1.eq_of_length heq).symm

/-- What was put into the tree together with a goal, or with one above it, is no deeper. -/
theorem length_le_of_dropLast_prefix (h : d.path.dropLast <+: g.path.dropLast) (below : g.path ≠ []) :
    d.path.length ≤ g.path.length := by
  have hle := h.length_le
  have hpos := List.length_pos_iff.2 below
  rw [List.length_dropLast, List.length_dropLast] at hle
  omega

/-- A goal is kept if it is open or awaited where it stands. -/
theorem mem_dropDischarged : g ∈ dropDischarged memoized goals ↔
    ∃ before behind, goals = before ++ g :: behind ∧
      (g.isOpen = true ∨ isAwaited memoized g.goal (behind.map goal) = true) := by
  induction goals with
  | nil => simp [dropDischarged]
  | cons first goals ih =>
    constructor
    · intro h
      rw [dropDischarged] at h
      split at h
      · rcases List.mem_cons.1 h with rfl | h
        · exact ⟨[], goals, rfl, by rwa [← Bool.or_eq_true]⟩
        · obtain ⟨before, behind, rfl, hkept⟩ := ih.1 h
          exact ⟨first :: before, behind, rfl, hkept⟩
      · obtain ⟨before, behind, rfl, hkept⟩ := ih.1 h
        exact ⟨first :: before, behind, rfl, hkept⟩
    · rintro ⟨before, behind, heq, hkept⟩
      rw [dropDischarged]
      cases before with
      | nil =>
        obtain ⟨rfl, rfl⟩ := List.cons.inj heq
        rw [if_pos (by rwa [Bool.or_eq_true])]
        exact List.mem_cons_self
      | cons _ before =>
        obtain ⟨rfl, rfl⟩ := List.cons.inj heq
        have hmem := ih.2 ⟨before, behind, rfl, hkept⟩
        split
        · exact List.mem_cons_of_mem _ hmem
        · exact hmem

end Located

/-- If what satisfies a predicate comes first, it is the run that does. -/
theorem filter_eq_takeWhile {α : Type} {p : α → Bool} {items : List α}
    (h : items.Pairwise fun a b => p b = true → p a = true) : items.filter p = items.takeWhile p := by
  induction h with
  | nil => rfl
  | @cons a items first _ ih =>
    cases ha : p a with
    | true => rw [List.filter_cons_of_pos ha, List.takeWhile_cons_of_pos ha, ih]
    | false =>
      rw [List.filter_cons_of_neg (by simp [ha]), List.takeWhile_cons_of_neg (by simp [ha]),
        List.filter_eq_nil_iff]
      intro b hb hpb
      rw [first b hb hpb] at ha
      cases ha

theorem takeWhile_congr {α : Type} {p q : α → Bool} {items : List α} (h : ∀ a ∈ items, p a = q a) :
    items.takeWhile p = items.takeWhile q := by
  induction items with
  | nil => rfl
  | cons a items ih =>
    rw [List.forall_mem_cons] at h
    rw [List.takeWhile_cons, List.takeWhile_cons, h.1, ih h.2]

namespace InTree

/-- The goals that descend from a goal stand right behind it. -/
theorem descendants_eq_takeWhile (h : InTree s (before ++ g :: behind)) :
    g.descendants (before ++ g :: behind) = behind.takeWhile fun d => d.DescendsFrom g := by
  have hbefore : ∀ d ∈ before, ¬ d.DescendsFrom g := by
    rintro d hd ⟨⟨rest, hrest⟩, hne⟩
    have hlt : d.path < g.path := h.path_lt_of_before d hd
    rw [← hrest] at hlt hne
    exact List.lt_asymm hlt (lt_append fun hnil => hne (by rw [hnil, List.append_nil]))
  have hbehind : (behind.Pairwise fun d e =>
      decide (e.DescendsFrom g) = true → decide (d.DescendsFrom g) = true) := by
    have hsorted := (List.pairwise_cons.1 (List.pairwise_append.1 h.sorted).2.1).2
    refine hsorted.imp_of_mem fun {d e} hd he hlt => ?_
    rw [decide_eq_true_eq, decide_eq_true_eq]
    have hgd : g.path < d.path := h.path_lt_of_behind d hd
    intro hdescends
    exact ⟨prefix_of_lt_of_lt hgd hlt hdescends.1, fun heq => List.lt_irrefl _ (heq ▸ hgd)⟩
  rw [Located.descendants, List.filter_append, List.filter_eq_nil_iff.2 (by simpa using hbefore),
    List.nil_append, List.filter_cons_of_neg (by simp [Located.DescendsFrom]), filter_eq_takeWhile hbehind]

theorem depth_lt (h : InTree s goals) (hg : g ∈ goals) (hd : d ∈ goals) (descends : d.DescendsFrom g) :
    g.goal.depth < d.goal.depth := by
  rw [h.depth g hg, h.depth d hd]
  exact descends.length_lt

/-- The run of deeper goals behind a goal starts with the ones that descend from it. -/
theorem descendants_prefix (h : InTree s (before ++ g :: behind)) :
    g.descendants (before ++ g :: behind) <+: g.deeperRun behind := by
  have hsub : g.descendants (before ++ g :: behind) =
      (g.deeperRun behind).takeWhile fun d => d.DescendsFrom g := by
    rw [h.descendants_eq_takeWhile, Located.deeperRun, List.takeWhile_takeWhile]
    refine takeWhile_congr fun d hd => ?_
    rw [decide_eq_decide, decide_eq_true_eq, decide_eq_true_eq]
    exact ⟨fun hdescends => ⟨hdescends, h.depth_lt (by simp) (by simp [hd]) hdescends⟩, And.left⟩
  rw [hsub]
  exact List.takeWhile_prefix _

/-- An open goal that descends from a goal is seen by the depths. -/
theorem pendingBelow_of_descendsFrom (h : InTree s (before ++ g :: behind))
    (hd : d ∈ before ++ g :: behind) (descends : d.DescendsFrom g) (opened : d.isOpen = true) :
    pendingBelow g.goal.depth (behind.map Located.goal) = true := by
  rw [Located.pendingBelow_eq_any, List.any_eq_true]
  exact ⟨d, h.descendants_prefix.subset (Located.mem_descendants.2 ⟨hd, descends⟩), opened⟩

/-- If what stands behind a goal and does not descend from it was put there together with it, or with a goal
above it, then the run of deeper goals is exact. -/
theorem deeperRun_eq (h : InTree s (before ++ g :: behind))
    (aside : ∀ d ∈ behind, d.DescendsFrom g ∨ d.path.dropLast <+: g.path.dropLast) :
    g.deeperRun behind = g.descendants (before ++ g :: behind) := by
  rw [h.descendants_eq_takeWhile, Located.deeperRun]
  refine takeWhile_congr fun d hd => decide_eq_decide.2 ⟨fun hdeeper => ?_, ?_⟩
  · rcases aside d hd with hdescends | hunder
    · exact hdescends
    · by_cases hroot : g.path = []
      · refine ⟨hroot ▸ List.nil_prefix, fun heq => List.lt_irrefl g.path ?_⟩
        have hlt : g.path < d.path := h.path_lt_of_behind d hd
        rwa [heq] at hlt
      · have hle := Located.length_le_of_dropLast_prefix hunder hroot
        rw [h.depth g (by simp), h.depth d (by simp [hd])] at hdeeper
        omega
  · exact h.depth_lt (by simp) (by simp [hd])

end InTree

/-! ### Overtaken goals -/

/-- While a goal or one below it is open, a step expands a goal of a program predicate that stands behind it
and not below it. -/
def Step.Overtakes (s : Setting) (step : Step) (g : Located) : Prop :=
  step.goal.IsClausal s ∧ (g.path < step.goal.path ∧ ¬ g.path <+: step.goal.path) ∧
    ∃ u ∈ step.kept, u.isOpen = true ∧ g.path <+: u.path

instance (s : Setting) (step : Step) (g : Located) : Decidable (step.Overtakes s g) :=
  inferInstanceAs (Decidable (_ ∧ _ ∧ ∃ u ∈ step.kept, u.isOpen = true ∧ g.path <+: u.path))

/-- One of some steps overtook a goal. -/
def Overtaken (s : Setting) (steps : List Step) (g : Located) : Prop :=
  ∃ step ∈ steps, step.Overtakes s g

instance (s : Setting) (steps : List Step) (g : Located) : Decidable (Overtaken s steps g) :=
  inferInstanceAs (Decidable (∃ step ∈ steps, step.Overtakes s g))

/-- What stands behind a goal that was not overtaken, and does not descend from it, was put there together
with it or with a goal above it. -/
def IsAside (s : Setting) (steps : List Step) (goals : List Located) : Prop :=
  ∀ g ∈ goals, ¬ Overtaken s steps g → ∀ d ∈ goals, g.path < d.path →
    d.DescendsFrom g ∨ d.path.dropLast <+: g.path.dropLast

/-- Below a discharged goal that was not overtaken, and is not the one that stands for the query, a goal is
open. -/
def IsPending (s : Setting) (steps : List Step) (goals : List Located) : Prop :=
  ∀ g ∈ goals, ¬ Overtaken s steps g → g.isOpen = false → g.path ≠ [] →
    ∃ d ∈ goals, d.isOpen = true ∧ d.DescendsFrom g

variable {all kept : List Located} {root : Fact} {steps : List Step}

theorem overtaken_settle {b : Bindings} {path : List Nat} :
    Overtaken s steps (g.settle b path) ↔ Overtaken s steps g := by
  simp [Overtaken, Step.Overtakes]

theorem Overtaken.cons {step : Step} (h : Overtaken s steps g) : Overtaken s (step :: steps) g := by
  obtain ⟨earlier, hearlier, hrest⟩ := h
  exact ⟨earlier, List.mem_cons_of_mem step hearlier, hrest⟩

theorem Overtaken.of_settle {b : Bindings} {path : List Nat} {step : Step}
    (h : ¬ Overtaken s (step :: steps) (g.settle b path)) : ¬ Overtaken s steps g :=
  fun hover => h (overtaken_settle.2 hover.cons)

/-- What a goal behind another one is expanded into descends from that one, too, or overtakes it. -/
theorem IsPending.prefix_of_lt (h : IsPending s steps kept) (tree : InTree s kept)
    (x : Expansion s memoized kept) (hg : g ∈ kept) {c : Located}
    (child : c ∈ x.goal.children (x.clause.2.map x.bindings.substitute)) (hlt : g.path < c.path)
    (free : ¬ Overtaken s (⟨kept, x.goal⟩ :: steps) g) : g.path <+: x.goal.path := by
  by_contra apart
  have hclausal := x.isClausal_of_mem_children child
  obtain ⟨number, _, rfl⟩ := Located.mem_children.1 child
  have hbehind : g.path < x.goal.path := by
    obtain ⟨before, behind, heq⟩ := List.append_of_mem x.goal_mem
    have htree : InTree s (before ++ x.goal :: behind) := heq ▸ tree
    rcases htree.before_or_behind (heq ▸ hg) with ⟨-, hbefore⟩ | rfl | ⟨hmem, hgt⟩
    · exact hbefore
    · exact absurd List.prefix_rfl apart
    · exact absurd (prefix_of_lt_of_lt hgt hlt (List.prefix_append _ _))
        (htree.not_prefix_of_behind x.isOpen_goal g hmem)
  -- If the goal is not overtaken here, nothing is open below it, so it would have been dropped before.
  have hdone : ∀ u ∈ kept, u.isOpen = true → ¬ g.path <+: u.path := fun u hu hopen hunder =>
    free ⟨⟨kept, x.goal⟩, List.mem_cons_self, hclausal, ⟨hbehind, apart⟩, u, hu, hopen, hunder⟩
  have hclosed : g.isOpen = false := by
    cases hopen : g.isOpen with
    | true => exact absurd List.prefix_rfl (hdone g hg hopen)
    | false => rfl
  have hroot : g.path ≠ [] := fun hnil => apart (hnil ▸ List.nil_prefix)
  obtain ⟨u, hu, hopen, hdescends⟩ := h g hg (fun hover => free hover.cons) hclosed hroot
  exact hdone u hu hopen hdescends.1

/-- What an expansion puts into the tree stands aside of the goals that it does not overtake. -/
theorem IsAside.splice (h : IsAside s steps kept) (pending : IsPending s steps kept)
    (tree : InTree s kept) (x : Expansion s memoized kept) :
    IsAside s (⟨kept, x.goal⟩ :: steps) (x.splice kept) := by
  intro g' hg' free d' hd' hlt
  rcases (x.mem_splice tree x.goal_mem).1 hg' with ⟨g, hg, rfl⟩ | hchild
  · rw [Located.path_settle] at hlt
    rcases (x.mem_splice tree x.goal_mem).1 hd' with ⟨d, hd, rfl⟩ | hchild
    · simpa [Located.DescendsFrom] using h g hg (Overtaken.of_settle free) d hd (by simpa using hlt)
    · have hunder : g.path <+: x.goal.path :=
        pending.prefix_of_lt tree x hg hchild hlt fun hover => free (overtaken_settle.2 hover)
      obtain ⟨number, _, rfl⟩ := Located.mem_children.1 hchild
      refine .inl ⟨by simpa using hunder.trans (List.prefix_append _ _), fun heq => ?_⟩
      have hle := hunder.length_le
      rw [Located.path_settle] at heq
      rw [← heq, List.length_append, List.length_singleton] at hle
      omega
  · have hclausal := x.isClausal_of_mem_children hchild
    obtain ⟨number, _, rfl⟩ := Located.mem_children.1 hchild
    rw [List.dropLast_concat]
    rcases (x.mem_splice tree x.goal_mem).1 hd' with ⟨d, hd, rfl⟩ | hsibling
    · rw [Located.path_settle] at hlt ⊢
      have hbehind : x.goal.path < d.path := List.lt_trans (lt_append (by simp)) hlt
      exact .inr ((tree.dropLast_prefix_of_isClausal x.goal_mem hd hbehind hclausal).trans
        (List.dropLast_prefix _))
    · obtain ⟨other, _, rfl⟩ := Located.mem_children.1 hsibling
      rw [List.dropLast_concat]
      exact .inr List.prefix_rfl

theorem Located.mem_compact_of_isOpen (hd : d ∈ goals) (opened : d.isOpen = true) :
    d ∈ Located.compact memoized goals := by
  have hmem : d ∈ (Located.compact memoized goals).filter Located.isOpen := by
    rw [Located.filter_isOpen_compact]
    exact List.mem_filter.2 ⟨hd, opened⟩
  exact (List.mem_filter.1 hmem).1

/-- Where the run of deeper goals is exact, it has an open goal exactly if one descends from the goal. -/
theorem pendingBelow_iff (exact : g.deeperRun behind = g.descendants (before ++ g :: behind)) :
    pendingBelow g.goal.depth (behind.map Located.goal) = true ↔
      ∃ d ∈ before ++ g :: behind, d.isOpen = true ∧ d.DescendsFrom g := by
  rw [Located.pendingBelow_eq_any, exact, List.any_eq_true]
  refine exists_congr fun d => ?_
  rw [Located.mem_descendants]
  tauto

theorem IsAside.deeperRun_eq (h : IsAside s steps (before ++ g :: behind))
    (tree : InTree s (before ++ g :: behind)) (free : ¬ Overtaken s steps g) :
    g.deeperRun behind = g.descendants (before ++ g :: behind) :=
  tree.deeperRun_eq fun d hd => h g (by simp) free d (by simp [hd]) (tree.path_lt_of_behind d hd)

/-- Compaction keeps those discharged goals only below which a goal is open, if none was overtaken. -/
theorem IsAside.compact {query : Located} (h : IsAside s steps (query :: goals))
    (tree : InTree s (query :: goals)) (root : query.path = []) :
    IsPending s steps (Located.compact memoized (query :: goals)) := by
  intro g hg free hclosed hroot
  rcases List.mem_cons.1 hg with rfl | hg
  · exact absurd root hroot
  obtain ⟨before, behind, rfl, hopen | hawaited⟩ := Located.mem_dropDischarged.1 hg
  · rw [hopen] at hclosed
    cases hclosed
  · rw [← List.cons_append] at h tree
    obtain ⟨d, hd, hopen, hdescends⟩ :=
      (pendingBelow_iff (h.deeperRun_eq tree free)).1 (Bool.and_eq_true_iff.1 hawaited).2
    exact ⟨d, Located.mem_compact_of_isOpen hd hopen, hopen, hdescends⟩

namespace Lineage

/-- In what is kept, all goals stand aside of the ones that were not overtaken, and each of these waits for
a goal below it. -/
theorem isAside (h : Lineage s memoized root steps all kept) :
    IsAside s steps kept ∧ IsPending s steps kept := by
  induction h with
  | start =>
    constructor
    · intro g hg _ d hd hlt
      rw [List.mem_singleton.1 hg, List.mem_singleton.1 hd] at hlt
      exact absurd hlt (List.lt_irrefl _)
    · intro g hg _ _ hroot
      rw [List.mem_singleton.1 hg] at hroot
      exact absurd rfl hroot
  | @expand steps all kept child parent x made ih =>
    have htree : InTree s (x.splice kept) := parent.keeps.inTree_splice_kept x
    have haside : IsAside s (⟨kept, x.goal⟩ :: steps) (x.splice kept) :=
      ih.1.splice ih.2 parent.keeps.inTree_kept x
    obtain ⟨query, goals, rfl, hpath, -⟩ := parent.exists_query
    refine ⟨fun g hg free d hd => haside g ?_ free d ?_, haside.compact htree (by simpa using hpath)⟩
    · exact (Located.compact_sublist _ _).subset hg
    · exact (Located.compact_sublist _ _).subset hd

/-- The steps of a lineage expand solutions that come about. -/
theorem exists_of_mem (h : Lineage s memoized root steps all kept) {step : Step} (mem : step ∈ steps) :
    ∃ steps all, Lineage s memoized root steps all step.kept ∧
      ∃ x : Expansion s memoized step.kept, x.goal = step.goal := by
  induction h with
  | start => exact absurd mem List.not_mem_nil
  | @expand steps all kept child parent x made ih =>
    rcases List.mem_cons.1 mem with rfl | mem
    · exact ⟨steps, all, parent, x, rfl⟩
    · exact ih mem

/-- What is open at a goal that an expansion overtakes, or below it, are built-ins. -/
theorem isBuiltin_of_lt (h : Lineage s memoized root steps all kept) (x : Expansion s memoized kept)
    (user : s.isBuiltin x.goal.goal.fact = false) (hbehind : g.path < x.goal.path)
    (apart : ¬ g.path <+: x.goal.path) (hd : d ∈ kept) (opened : d.isOpen = true)
    (hunder : g.path <+: d.path) : s.isBuiltin d.goal.fact = true := by
  obtain ⟨before, behind, rfl⟩ := List.append_of_mem (h.keeps.goal_mem x)
  rcases h.keeps.inTree.before_or_behind (h.keeps.sublist.subset hd) with
    ⟨hbefore, -⟩ | rfl | ⟨-, hlt⟩
  · rw [← Bool.not_eq_false]
    exact fun huser => h.keeps.first_of_expansion x user d hbefore ⟨opened, huser⟩
  · exact absurd hunder apart
  · exact absurd (prefix_of_lt_of_lt hbehind hlt hunder) apart

/-- If no clause calls a built-in, no goal of a solution is one. -/
theorem isUser (h : Lineage s memoized root steps all kept) (query : s.isBuiltin root = false)
    (called : ∀ key, ∀ c ∈ s.program.candidates key, ∀ f ∈ c.body, s.isBuiltin f = false) :
    ∀ d ∈ kept, s.isBuiltin d.goal.fact = false := by
  induction h with
  | start => simpa [Located.query, Goal.pending] using query
  | @expand steps all kept child parent x made ih =>
    have hchild : ∀ d ∈ child, s.registry.contains d.fact.functor d.fact.arity = false :=
      predicates_of_mem_expand (P := fun functor arity => s.registry.contains functor arity = false)
        (List.forall_mem_map.2 ih) called (x.child_mem_expand made)
    rw [← x.map_goal_compact parent.keeps.inTree_kept made] at hchild
    exact List.forall_mem_map.1 hchild

end Lineage

/-- The goals of a solution that comes about in a search, and those that an expansion has before compaction
drops any of them. -/
inductive Listed (s : Setting) (memoized : String → Bool) (root : Fact) :
    (steps : List Step) → (goals : List Located) → Prop
  | kept {steps : List Step} {all kept : List Located} (h : Lineage s memoized root steps all kept) :
      Listed s memoized root steps kept
  | spliced {steps : List Step} {all kept : List Located} {proven : List Fact} {child : Option Solution}
      (h : Lineage s memoized root steps all kept) (x : Expansion s memoized kept)
      (made : x.attempt = .discharged proven child) :
      Listed s memoized root (⟨kept, x.goal⟩ :: steps) (x.splice kept)

namespace Listed

theorem inTree (h : Listed s memoized root steps goals) : InTree s goals := by
  cases h with
  | kept h => exact h.keeps.inTree_kept
  | spliced h x made => exact h.keeps.inTree_splice_kept x

/-- The steps of what comes about expand solutions that come about. -/
theorem exists_of_mem (h : Listed s memoized root steps goals) {step : Step} (mem : step ∈ steps) :
    ∃ steps all, Lineage s memoized root steps all step.kept ∧
      ∃ x : Expansion s memoized step.kept, x.goal = step.goal := by
  cases h with
  | kept h => exact h.exists_of_mem mem
  | @spliced steps all kept proven child h x made =>
    rcases List.mem_cons.1 mem with rfl | mem
    · exact ⟨steps, all, h, x, rfl⟩
    · exact h.exists_of_mem mem

theorem isAside (h : Listed s memoized root steps goals) : IsAside s steps goals := by
  cases h with
  | kept h => exact h.isAside.1
  | spliced h x made => exact h.isAside.1.splice h.isAside.2 h.keeps.inTree_kept x

/-- A step that overtakes a goal leaves built-ins behind that wait for their inputs. -/
theorem isBuiltin_of_overtakes (h : Listed s memoized root steps goals) {step : Step} (mem : step ∈ steps)
    (overtakes : step.Overtakes s g) (hd : d ∈ step.kept) (opened : d.isOpen = true)
    (hunder : g.path <+: d.path) : s.isBuiltin d.goal.fact = true := by
  obtain ⟨steps, all, hlineage, x, hgoal⟩ := h.exists_of_mem mem
  obtain ⟨hclausal, ⟨hbehind, apart⟩, -⟩ := overtakes
  rw [← hgoal] at hclausal hbehind apart
  exact hlineage.isBuiltin_of_lt x hclausal.2 hbehind apart hd opened hunder

/-- If no clause calls a built-in, no goal is overtaken. -/
theorem not_overtaken (h : Listed s memoized root steps goals) (query : s.isBuiltin root = false)
    (called : ∀ key, ∀ c ∈ s.program.candidates key, ∀ f ∈ c.body, s.isBuiltin f = false) :
    ¬ Overtaken s steps g := by
  rintro ⟨step, mem, overtakes⟩
  obtain ⟨steps, all, hlineage, -⟩ := h.exists_of_mem mem
  obtain ⟨-, -, u, hu, hopen, hunder⟩ := id overtakes
  have hbuiltin := h.isBuiltin_of_overtakes mem overtakes hu hopen hunder
  rw [hlineage.isUser query called u hu] at hbuiltin
  cases hbuiltin

end Listed

end Horn.Search
