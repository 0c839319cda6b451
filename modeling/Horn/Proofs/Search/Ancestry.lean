import Mathlib.Data.List.Flatten
import Mathlib.Data.List.Lex
import Horn.Proofs.Search.Pending

/-!
How goals descend from one another.

A goal does not tell into which goals it was expanded. Here it gets its path in the tree of expansions: the
goals of a body are put right behind the goal that they discharge and get its path with their number. So
one goal descends from another one if its path goes on with more numbers. `InTree` says how the goals of a
solution lie in the tree, and `InTree.splice` that an expansion keeps them so.
-/

set_option autoImplicit false
set_option relaxedAutoImplicit false

namespace Horn.Search

/-! ### Paths -/

section Path

variable {a b c x : List Nat}

theorem lt_append (ne : x ≠ []) : a < a ++ x := by
  induction a with
  | nil =>
    obtain ⟨n, x, rfl⟩ := List.exists_cons_of_ne_nil ne
    exact List.nil_lt_cons n x
  | cons n a ih => exact List.cons_lt_cons_iff.2 (.inr ⟨rfl, ih⟩)

/-- What lies between a path and a path below it lies below it as well. -/
theorem prefix_of_lt_of_lt (hab : a < b) (hbc : b < c) (hac : a <+: c) : a <+: b := by
  induction a generalizing b c with
  | nil => exact List.nil_prefix
  | cons n a ih =>
    obtain ⟨rest, rfl⟩ := hac
    cases b with
    | nil => exact absurd hab (List.not_lt_nil _)
    | cons m b =>
      rw [List.cons_lt_cons_iff] at hab
      rw [List.cons_append, List.cons_lt_cons_iff] at hbc
      obtain ⟨rfl, hab, hbc⟩ : n = m ∧ a < b ∧ b < a ++ rest := by
        rcases hab with hab | ⟨rfl, hab⟩ <;> rcases hbc with hbc | ⟨heq, hbc⟩
        · omega
        · omega
        · omega
        · exact ⟨rfl, hab, hbc⟩
      exact List.cons_prefix_cons.2 ⟨rfl, ih hab hbc (List.prefix_append a rest)⟩

/-- What lies below a path comes before everything that comes after the path and not below it. -/
theorem append_lt_of_not_prefix (hab : a < b) (apart : ¬ a <+: b) (x : List Nat) : a ++ x < b := by
  induction a generalizing b with
  | nil => exact absurd List.nil_prefix apart
  | cons n a ih =>
    cases b with
    | nil => exact absurd hab (List.not_lt_nil _)
    | cons m b =>
      rw [List.cons_lt_cons_iff] at hab
      rw [List.cons_append, List.cons_lt_cons_iff]
      rcases hab with hab | ⟨rfl, hab⟩
      · exact .inl hab
      · exact .inr ⟨rfl, ih hab fun h => apart (List.cons_prefix_cons.2 ⟨rfl, h⟩)⟩

theorem append_singleton_lt {i j : Nat} (h : i < j) : a ++ [i] < a ++ [j] :=
  List.append_left_lt (List.cons_lt_cons_iff.2 (.inl h))

end Path

/-- A goal with its path from the query: the numbers of the goals among the ones of their bodies, on the
way down to it. -/
structure Located where
  goal : Goal
  path : List Nat

namespace Located

/-- A goal comes from another one that was expanded, directly or through goals in between. -/
def DescendsFrom (d g : Located) : Prop :=
  g.path <+: d.path ∧ d.path ≠ g.path

instance (d g : Located) : Decidable (d.DescendsFrom g) :=
  inferInstanceAs (Decidable (_ ∧ _))

/-- The goal that stands for the query. -/
def query (root : Fact) : Located :=
  ⟨.pending 0 root, []⟩

def isOpen (g : Located) : Bool :=
  !g.goal.resolved

def substitute (b : Bindings) (g : Located) : Located :=
  { g with goal := g.goal.substitute b }

/-- A goal once it is discharged. -/
def discharged (b : Bindings) (g : Located) : Located :=
  { g with goal := { g.goal.substitute b with resolved := true } }

/-- The goals that a goal is expanded into. -/
def children (body : List Fact) (g : Located) : List Located :=
  body.mapIdx fun number f => ⟨.pending (g.goal.depth + 1) f, g.path ++ [number]⟩

/-- What becomes of a goal when the one with a path is discharged. -/
def settle (b : Bindings) (path : List Nat) (g : Located) : Located :=
  if g.path = path then g.discharged b else g.substitute b

/-- Substitutes in all goals, marks the goal with a path as discharged and puts its expansion behind it. -/
def splice (b : Bindings) (body : List Fact) (path : List Nat) (goals : List Located) : List Located :=
  goals.flatMap fun g => g.settle b path :: if g.path = path then g.children body else []

/-- Drops the discharged goals that are not awaited. -/
def dropDischarged (memoized : String → Bool) : List Located → List Located
  | [] => []
  | g :: behind =>
    if g.isOpen || isAwaited memoized g.goal (behind.map goal) then
      g :: dropDischarged memoized behind
    else dropDischarged memoized behind

/-- Keeps the first goal, the open ones and the awaited ones. -/
def compact (memoized : String → Bool) : List Located → List Located
  | [] => []
  | query :: goals => query :: dropDischarged memoized goals

end Located

open Located (splice)

variable {s : Setting} {memoized : String → Bool} {b : Bindings} {body : List Fact}
  {before behind goals : List Located} {g : Located}

namespace Located

@[simp] theorem path_substitute (b : Bindings) (g : Located) : (g.substitute b).path = g.path := rfl

@[simp] theorem path_discharged (b : Bindings) (g : Located) : (g.discharged b).path = g.path := rfl

@[simp] theorem isOpen_substitute (b : Bindings) (g : Located) : (g.substitute b).isOpen = g.isOpen := by
  rw [isOpen, substitute, resolved_substitute, isOpen]

@[simp] theorem isOpen_discharged (b : Bindings) (g : Located) : (g.discharged b).isOpen = false := rfl

theorem mem_children {d : Located} :
    d ∈ g.children body ↔ ∃ (number : Nat) (h : number < body.length),
      d = ⟨.pending (g.goal.depth + 1) body[number], g.path ++ [number]⟩ := by
  simp [children, List.mem_mapIdx, eq_comm]

theorem map_goal_children (body : List Fact) (g : Located) :
    (g.children body).map goal = body.map (Goal.pending (g.goal.depth + 1)) := by
  refine List.ext_getElem (by simp [children]) fun number _ _ => ?_
  simp [children]

/-! ### Settling and splicing -/

theorem settle_self (b : Bindings) (g : Located) : g.settle b g.path = g.discharged b :=
  if_pos rfl

theorem settle_of_ne {path : List Nat} (h : g.path ≠ path) : g.settle b path = g.substitute b :=
  if_neg h

@[simp] theorem path_settle (b : Bindings) (path : List Nat) (g : Located) :
    (g.settle b path).path = g.path := by
  rw [settle]
  split <;> rfl

@[simp] theorem depth_settle (b : Bindings) (path : List Nat) (g : Located) :
    (g.settle b path).goal.depth = g.goal.depth := by
  rw [settle]
  split <;> simp [discharged, substitute]

@[simp] theorem functor_settle (b : Bindings) (path : List Nat) (g : Located) :
    (g.settle b path).goal.fact.functor = g.goal.fact.functor := by
  rw [settle]
  split <;> simp [discharged, substitute]

@[simp] theorem arity_settle (b : Bindings) (path : List Nat) (g : Located) :
    (g.settle b path).goal.fact.arity = g.goal.fact.arity := by
  rw [settle]
  split <;> simp [discharged, substitute]

@[simp] theorem key_settle (b : Bindings) (path : List Nat) (g : Located) :
    (g.settle b path).goal.key = g.goal.key := by
  rw [Goal.key, Fact.key, functor_settle, arity_settle]
  rfl

theorem isOpen_settle {path : List Nat} :
    (g.settle b path).isOpen = true ↔ g.isOpen = true ∧ g.path ≠ path := by
  by_cases h : g.path = path
  · subst h
    simp [settle_self]
  · simp [settle_of_ne h, h]

/-- What is spliced are the settled goals and the expansion of the one that is discharged. -/
theorem mem_splice {path : List Nat} {d : Located} :
    d ∈ splice b body path goals ↔
      (∃ old ∈ goals, d = old.settle b path) ∨ ∃ g ∈ goals, g.path = path ∧ d ∈ g.children body := by
  rw [splice, List.mem_flatMap, ← exists_or]
  refine exists_congr fun g => ?_
  rw [← and_or_left, List.mem_cons]
  by_cases h : g.path = path <;> simp [h]

theorem splice_eq_map {path : List Nat} (other : ∀ d ∈ goals, d.path ≠ path) :
    splice b body path goals = goals.map (substitute b) := by
  induction goals with
  | nil => rfl
  | cons d goals ih =>
    rw [List.forall_mem_cons] at other
    rw [splice, List.flatMap_cons, settle_of_ne other.1, if_neg other.1, ← splice, ih other.2]
    rfl

theorem splice_append (path : List Nat) (goals others : List Located) :
    splice b body path (goals ++ others) = splice b body path goals ++ splice b body path others :=
  List.flatMap_append ..

theorem splice_cons_self (g : Located) (goals : List Located) :
    splice b body g.path (g :: goals) =
      g.discharged b :: (g.children body ++ splice b body g.path goals) := by
  rw [splice, List.flatMap_cons, settle_self, if_pos rfl]
  rfl

/-- A goal is spliced where it stands if no other goal has its path. -/
theorem splice_eq (hbefore : ∀ d ∈ before, d.path ≠ g.path) (hbehind : ∀ d ∈ behind, d.path ≠ g.path) :
    splice b body g.path (before ++ g :: behind) =
      before.map (substitute b) ++
        g.discharged b :: (g.children body ++ behind.map (substitute b)) := by
  rw [splice_append, splice_cons_self, splice_eq_map hbefore, splice_eq_map hbehind]

theorem splice_sublist {others : List Located} (h : goals.Sublist others) (path : List Nat) :
    (splice b body path goals).Sublist (splice b body path others) :=
  h.flatMap _

/-- What is open once the goal with a path is discharged. -/
theorem filter_isOpen_splice {path : List Nat} (opened : ∀ d ∈ goals, d.path = path → d.isOpen = true) :
    (splice b body path goals).filter isOpen =
      (goals.filter isOpen).flatMap fun d =>
        if d.path = path then d.children body else [d.substitute b] := by
  induction goals with
  | nil => rfl
  | cons d goals ih =>
    rw [List.forall_mem_cons] at opened
    have hchildren : (d.children body).filter isOpen = d.children body := by
      rw [List.filter_eq_self]
      intro c hc
      obtain ⟨_, _, rfl⟩ := mem_children.1 hc
      rfl
    have hrest := ih opened.2
    rw [splice] at hrest ⊢
    rw [List.flatMap_cons, List.filter_append, hrest]
    by_cases hd : d.path = path
    · rw [if_pos hd, List.filter_cons_of_neg (by simp [isOpen_settle, hd]), hchildren,
        List.filter_cons_of_pos (opened.1 hd), List.flatMap_cons, if_pos hd]
    · rw [if_neg hd, settle_of_ne hd]
      cases hopen : d.isOpen with
      | true =>
        rw [List.filter_cons_of_pos (by simpa using hopen), List.filter_cons_of_pos hopen,
          List.flatMap_cons, if_neg hd]
        rfl
      | false =>
        rw [List.filter_cons_of_neg (by simpa using hopen), List.filter_cons_of_neg (by simpa using hopen)]
        rfl

/-! ### Compaction -/

theorem map_goal_dropDischarged (memoized : String → Bool) (goals : List Located) :
    (dropDischarged memoized goals).map goal = Search.dropDischarged memoized (goals.map goal) := by
  induction goals with
  | nil => rfl
  | cons g behind ih =>
    rw [dropDischarged, List.map_cons, Search.dropDischarged, isOpen]
    split
    · rw [List.map_cons, ih]
    · exact ih

theorem map_goal_compact (memoized : String → Bool) (goals : List Located) :
    (compact memoized goals).map goal = (Search.compact memoized (goals.map goal)).1 := by
  cases goals with
  | nil => rfl
  | cons query goals =>
    rw [compact, List.map_cons, List.map_cons, compact_cons, map_goal_dropDischarged]

theorem dropDischarged_sublist (memoized : String → Bool) (goals : List Located) :
    (dropDischarged memoized goals).Sublist goals := by
  induction goals with
  | nil => exact .slnil
  | cons g behind ih =>
    rw [dropDischarged]
    split
    · exact ih.cons_cons g
    · exact ih.cons g

theorem compact_sublist (memoized : String → Bool) (goals : List Located) :
    (compact memoized goals).Sublist goals := by
  cases goals with
  | nil => exact .slnil
  | cons query goals => exact (dropDischarged_sublist memoized goals).cons_cons query

/-- Compaction keeps the open goals. -/
theorem filter_isOpen_compact (memoized : String → Bool) (goals : List Located) :
    (compact memoized goals).filter isOpen = goals.filter isOpen := by
  have hdrop (goals : List Located) :
      (dropDischarged memoized goals).filter isOpen = goals.filter isOpen := by
    induction goals with
    | nil => rfl
    | cons g behind ih =>
      rw [dropDischarged]
      cases hg : g.isOpen with
      | true =>
        rw [Bool.true_or, if_pos rfl, List.filter_cons_of_pos hg, List.filter_cons_of_pos hg, ih]
      | false =>
        rw [List.filter_cons_of_neg (by simpa using hg), ← ih]
        split
        · rw [List.filter_cons_of_neg (by simpa using hg)]
        · rfl
  cases goals with
  | nil => rfl
  | cons query goals => rw [compact, List.filter_cons, List.filter_cons, hdrop]

end Located

/-! ### How goals lie in the tree -/

namespace Located

/-- An open goal of a program predicate. -/
def IsClausal (s : Setting) (g : Located) : Prop :=
  g.isOpen = true ∧ s.isBuiltin g.goal.fact = false

instance (s : Setting) (g : Located) : Decidable (g.IsClausal s) :=
  inferInstanceAs (Decidable (_ ∧ _))

@[simp] theorem isClausal_substitute (b : Bindings) (g : Located) :
    (g.substitute b).IsClausal s ↔ g.IsClausal s := by
  simp [IsClausal, substitute, isOpen, Setting.isBuiltin]

theorem not_isClausal_discharged (b : Bindings) (g : Located) : ¬ (g.discharged b).IsClausal s := by
  simp [IsClausal]

theorem pairwise_path_children (body : List Fact) (g : Located) :
    (g.children body).Pairwise fun c d => c.path < d.path := by
  rw [List.pairwise_iff_getElem]
  intro i j hi hj hij
  simpa [children] using append_singleton_lt hij

end Located

/-- How the goals of a solution lie in the tree of expansions. Their depths are the lengths of their paths,
the paths go from left to right, nothing lies below an open goal, and what stands behind an open goal of
a program predicate was put there together with it or with a goal above it. -/
structure InTree (s : Setting) (goals : List Located) : Prop where
  depth : ∀ g ∈ goals, g.goal.depth = g.path.length
  sorted : goals.Pairwise fun g d => g.path < d.path
  leaf : ∀ g ∈ goals, g.isOpen = true → ∀ d ∈ goals, ¬ d.DescendsFrom g
  beside : goals.Pairwise fun g d => g.IsClausal s → d.path.dropLast <+: g.path.dropLast

namespace InTree

theorem query (s : Setting) (root : Fact) : InTree s [.query root] where
  depth := by simp [Located.query, Goal.pending]
  sorted := List.pairwise_singleton ..
  leaf := by simp [Located.DescendsFrom]
  beside := List.pairwise_singleton ..

theorem sublist {others : List Located} (h : InTree s goals) (sub : others.Sublist goals) :
    InTree s others where
  depth g hg := h.depth g (sub.subset hg)
  sorted := h.sorted.sublist sub
  leaf g hg opened d hd := h.leaf g (sub.subset hg) opened d (sub.subset hd)
  beside := h.beside.sublist sub

theorem path_lt_of_before (h : InTree s (before ++ g :: behind)) :
    ∀ d ∈ before, d.path < g.path :=
  fun d hd => (List.pairwise_append.1 h.sorted).2.2 d hd g List.mem_cons_self

theorem path_lt_of_behind (h : InTree s (before ++ g :: behind)) :
    ∀ d ∈ behind, g.path < d.path :=
  (List.pairwise_cons.1 (List.pairwise_append.1 h.sorted).2.1).1

/-- Where a goal stands beside another one is told by their paths. -/
theorem before_or_behind (h : InTree s (before ++ g :: behind)) {d : Located}
    (hd : d ∈ before ++ g :: behind) :
    d ∈ before ∧ d.path < g.path ∨ d = g ∨ d ∈ behind ∧ g.path < d.path := by
  rcases List.mem_append.1 hd with hd | hd
  · exact .inl ⟨hd, h.path_lt_of_before d hd⟩
  · exact .inr ((List.mem_cons.1 hd).imp_right fun hd => ⟨hd, h.path_lt_of_behind d hd⟩)

theorem mem_behind (h : InTree s (before ++ g :: behind)) {d : Located}
    (hd : d ∈ before ++ g :: behind) (hlt : g.path < d.path) : d ∈ behind := by
  rcases h.before_or_behind hd with ⟨-, hgt⟩ | rfl | ⟨hmem, -⟩
  · exact absurd hlt (List.lt_asymm hgt)
  · exact absurd hlt (List.lt_irrefl _)
  · exact hmem

theorem mem_before (h : InTree s (before ++ g :: behind)) {d : Located}
    (hd : d ∈ before ++ g :: behind) (hlt : d.path < g.path) : d ∈ before := by
  rcases h.before_or_behind hd with ⟨hmem, -⟩ | rfl | ⟨-, hgt⟩
  · exact hmem
  · exact absurd hlt (List.lt_irrefl _)
  · exact absurd hlt (List.lt_asymm hgt)

theorem eq_of_path_eq (h : InTree s goals) {d : Located} (hd : d ∈ goals) (hg : g ∈ goals)
    (heq : d.path = g.path) : d = g := by
  obtain ⟨before, behind, rfl⟩ := List.append_of_mem hg
  rcases h.before_or_behind hd with ⟨-, hlt⟩ | rfl | ⟨-, hlt⟩
  · exact absurd (heq ▸ hlt) (List.lt_irrefl _)
  · rfl
  · exact absurd (heq ▸ hlt) (List.lt_irrefl _)

/-- A goal is spliced where it stands. -/
theorem splice_eq (h : InTree s (before ++ g :: behind)) :
    splice b body g.path (before ++ g :: behind) =
      before.map (Located.substitute b) ++
        g.discharged b :: (g.children body ++ behind.map (Located.substitute b)) :=
  Located.splice_eq (fun d hd heq => List.lt_irrefl _ (heq ▸ h.path_lt_of_before d hd))
    fun d hd heq => List.lt_irrefl _ (heq ▸ h.path_lt_of_behind d hd)

/-- An open goal and what stands behind it lie in different branches. -/
theorem not_prefix_of_behind (h : InTree s (before ++ g :: behind)) (opened : g.isOpen = true) :
    ∀ d ∈ behind, ¬ g.path <+: d.path := by
  intro d hd hunder
  refine h.leaf g (by simp) opened d (by simp [hd]) ⟨hunder, fun heq => ?_⟩
  exact List.lt_irrefl _ (heq ▸ h.path_lt_of_behind d hd)

/-- What stands behind an open goal of a program predicate was put there with it or with a goal above it. -/
theorem dropLast_prefix_of_isClausal (h : InTree s goals) {d : Located} (hg : g ∈ goals) (hd : d ∈ goals)
    (hlt : g.path < d.path) (clausal : g.IsClausal s) : d.path.dropLast <+: g.path.dropLast := by
  obtain ⟨before, behind, rfl⟩ := List.append_of_mem hg
  exact (List.pairwise_cons.1 (List.pairwise_append.1 h.beside).2.1).1 d (h.mem_behind hd hlt) clausal

/-- A goal of a spliced solution is a settled one from before, or a child of the discharged one. -/
theorem mem_splice (h : InTree s goals) (hg : g ∈ goals) {d : Located} :
    d ∈ splice b body g.path goals ↔
      (∃ old ∈ goals, d = old.settle b g.path) ∨ d ∈ g.children body := by
  rw [Located.mem_splice]
  refine or_congr_right ⟨?_, fun hchild => ⟨g, hg, rfl, hchild⟩⟩
  rintro ⟨parent, hparent, hpath, hchild⟩
  rwa [h.eq_of_path_eq hparent hg hpath] at hchild

/-- What holds from left to right holds once a goal is spliced, if substituting keeps it and it holds of the
children and their surroundings. -/
theorem pairwise_splice {R : Located → Located → Prop} (h : InTree s (before ++ g :: behind))
    (old : (before ++ g :: behind).Pairwise fun d e => R (d.substitute b) (e.substitute b))
    (fromParent : ∀ e ∈ behind, R (g.substitute b) (e.substitute b) → R (g.discharged b) (e.substitute b))
    (toParent : ∀ d ∈ before, R (d.substitute b) (g.substitute b) → R (d.substitute b) (g.discharged b))
    (parent : ∀ c ∈ g.children body, R (g.discharged b) c) (children : (g.children body).Pairwise R)
    (left : ∀ d ∈ before, ∀ c ∈ g.children body, R (d.substitute b) c)
    (right : ∀ c ∈ g.children body, ∀ e ∈ behind, R c (e.substitute b)) :
    (Located.splice b body g.path (before ++ g :: behind)).Pairwise R := by
  obtain ⟨hbefore, hright, hacross⟩ := List.pairwise_append.1 old
  obtain ⟨hg, hbehind⟩ := List.pairwise_cons.1 hright
  rw [h.splice_eq]
  refine List.pairwise_append.2 ⟨List.pairwise_map.2 hbefore, List.pairwise_cons.2 ⟨?_, ?_⟩, ?_⟩
  · exact List.forall_mem_append.2
      ⟨parent, List.forall_mem_map.2 fun e he => fromParent e he (hg e he)⟩
  · exact List.pairwise_append.2 ⟨children, List.pairwise_map.2 hbehind,
      fun c hc => List.forall_mem_map.2 (right c hc)⟩
  · refine List.forall_mem_map.2 fun d hd =>
      List.forall_mem_cons.2 ⟨?_, List.forall_mem_append.2 ⟨left d hd, ?_⟩⟩
    · exact toParent d hd (hacross d hd g List.mem_cons_self)
    · exact List.forall_mem_map.2 fun e he => hacross d hd e (List.mem_cons_of_mem g he)

theorem sorted_splice (h : InTree s (before ++ g :: behind)) (opened : g.isOpen = true) :
    (Located.splice b body g.path (before ++ g :: behind)).Pairwise fun d e => d.path < e.path := by
  have hlt (number : Nat) : g.path < g.path ++ [number] := lt_append (by simp)
  refine h.pairwise_splice h.sorted (fun _ _ => id) (fun _ _ => id) ?_
    (Located.pairwise_path_children body g) ?_ ?_
  · intro c hc
    obtain ⟨number, _, rfl⟩ := Located.mem_children.1 hc
    exact hlt number
  · intro d hd c hc
    obtain ⟨number, _, rfl⟩ := Located.mem_children.1 hc
    exact List.lt_trans (h.path_lt_of_before d hd) (hlt number)
  · intro c hc e he
    obtain ⟨number, _, rfl⟩ := Located.mem_children.1 hc
    exact append_lt_of_not_prefix (h.path_lt_of_behind e he) (h.not_prefix_of_behind opened e he) _

theorem leaf_splice (h : InTree s (before ++ g :: behind)) (opened : g.isOpen = true) :
    ∀ x ∈ Located.splice b body g.path (before ++ g :: behind), x.isOpen = true →
      ∀ y ∈ Located.splice b body g.path (before ++ g :: behind), ¬ y.DescendsFrom x := by
  intro x hx hopen y hy hdescends
  have hg : g ∈ before ++ g :: behind := by simp
  rcases (h.mem_splice hg).1 hx with ⟨x', hx', rfl⟩ | hx
  · obtain ⟨hopen', hne⟩ := Located.isOpen_settle.1 hopen
    rw [Located.DescendsFrom, Located.path_settle] at hdescends
    rcases (h.mem_splice hg).1 hy with ⟨y', hy', rfl⟩ | hy
    · rw [Located.path_settle] at hdescends
      exact h.leaf x' hx' hopen' y' hy' hdescends
    · -- A child that came from another open goal would bring its parent with it.
      obtain ⟨number, _, rfl⟩ := Located.mem_children.1 hy
      rcases List.prefix_concat_iff.1 hdescends.1 with heq | hunder
      · exact hdescends.2 heq.symm
      · exact h.leaf x' hx' hopen' g hg ⟨hunder, Ne.symm hne⟩
  · obtain ⟨number, _, rfl⟩ := Located.mem_children.1 hx
    rcases (h.mem_splice hg).1 hy with ⟨y', hy', rfl⟩ | hy
    · rw [Located.DescendsFrom, Located.path_settle] at hdescends
      have hlength := hdescends.1.length_le
      refine h.leaf g hg opened y' hy' ⟨(List.prefix_append _ _).trans hdescends.1, fun heq => ?_⟩
      rw [heq, List.length_append, List.length_singleton] at hlength
      omega
    · obtain ⟨other, _, rfl⟩ := Located.mem_children.1 hy
      exact hdescends.2 (hdescends.1.eq_of_length (by simp)).symm

theorem beside_splice (h : InTree s (before ++ g :: behind)) (opened : g.isOpen = true)
    (first : s.isBuiltin g.goal.fact = false → ∀ d ∈ before, ¬ d.IsClausal s)
    (value : s.isBuiltin g.goal.fact = true → body = []) :
    (Located.splice b body g.path (before ++ g :: behind)).Pairwise fun d e =>
      d.IsClausal s → e.path.dropLast <+: d.path.dropLast := by
  have hparent : ∀ c ∈ g.children body, c.path.dropLast = g.path := by
    intro c hc
    obtain ⟨number, _, rfl⟩ := Located.mem_children.1 hc
    exact List.dropLast_concat
  -- Only the goal of a program predicate has children.
  have huser : ∀ c ∈ g.children body, s.isBuiltin g.goal.fact = false := by
    intro c hc
    rw [← Bool.not_eq_true]
    intro hbuiltin
    rw [value hbuiltin] at hc
    exact List.not_mem_nil hc
  refine h.pairwise_splice (by simpa using h.beside) ?_ (fun _ _ => id) ?_ ?_ ?_ ?_
  · exact fun _ _ _ hclausal => absurd hclausal (Located.not_isClausal_discharged b g)
  · exact fun _ _ hclausal => absurd hclausal (Located.not_isClausal_discharged b g)
  · refine List.pairwise_of_forall_mem_list fun c hc d hd _ => ?_
    simp [hparent c hc, hparent d hd]
  · intro d hd c hc hclausal
    exact absurd ((Located.isClausal_substitute b d).1 hclausal) (first (huser c hc) d hd)
  · intro c hc e he _
    rw [hparent c hc]
    have hunder := h.dropLast_prefix_of_isClausal (by simp) (by simp [he]) (h.path_lt_of_behind e he)
      ⟨opened, huser c hc⟩
    exact hunder.trans (List.dropLast_prefix _)

/-- The tree grows by an expansion of an open goal, which is the first open one of a program predicate
unless it is a built-in. -/
theorem splice (h : InTree s (before ++ g :: behind)) (opened : g.isOpen = true)
    (first : s.isBuiltin g.goal.fact = false → ∀ d ∈ before, ¬ d.IsClausal s)
    (value : s.isBuiltin g.goal.fact = true → body = []) :
    InTree s (Located.splice b body g.path (before ++ g :: behind)) where
  depth := by
    intro d hd
    rcases (h.mem_splice (by simp)).1 hd with ⟨old, hold, rfl⟩ | hchild
    · rw [Located.depth_settle, Located.path_settle]
      exact h.depth old hold
    · obtain ⟨number, _, rfl⟩ := Located.mem_children.1 hchild
      simp [Goal.pending, h.depth g (by simp)]
  sorted := h.sorted_splice opened
  leaf := h.leaf_splice opened
  beside := h.beside_splice opened first value

/-- Without their paths, goals are spliced as a search does it. -/
theorem map_goal_splice {position : Nat} (h : InTree s goals) (found : goals[position]? = some g) :
    (Located.splice b body g.path goals).map Located.goal =
      discharge b body position (goals.map Located.goal) := by
  obtain ⟨before, behind, rfl, rfl⟩ := exists_append_of_getElem? found
  have hdischarge : discharge b body before.length ((before ++ g :: behind).map Located.goal) =
      (before.map Located.goal).map (Goal.substitute b) ++ { g.goal.substitute b with resolved := true } ::
        (body.map (Goal.pending (g.goal.depth + 1)) ++
          (behind.map Located.goal).map (Goal.substitute b)) := by
    rw [List.map_append, List.map_cons, ← List.length_map Located.goal]
    exact discharge_append
  rw [hdischarge, h.splice_eq, List.map_append, List.map_cons, List.map_append, Located.map_goal_children]
  simp [Located.substitute, Located.discharged, Function.comp_def]

end InTree

end Horn.Search
