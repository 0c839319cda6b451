import Horn.Proofs.Search.Resolution
import Horn.Proofs.Valuation

/-!
Discharged goals are supported by the open goals of their expansions.

`Supported` is the invariant of a partial solution on which soundness rests: whatever values are put
for the variables, a discharged goal holds if the open goals in the run of deeper goals behind it
hold. It is read off the depths alone, so it survives splicing and compaction:
`supported_discharge` and `supported_dropDischarged`. A goal that is to be recorded has no open goal
in its run, and therefore holds: `holds_of_mem_provenGoals`.
-/

set_option autoImplicit false
set_option relaxedAutoImplicit false

namespace Horn.Search

/-- What it means that a tuple belongs to a predicate. -/
abbrev Meaning := String → List Literal → Prop

/-- The fact of a goal belongs to its predicate under a valuation. -/
def Goal.Holds (D : Meaning) (θ : Valuation) (g : Goal) : Prop :=
  D g.fact.functor (g.fact.values θ)

/-- The open ones among some goals hold under a valuation. -/
def OpenHold (D : Meaning) (θ : Valuation) (goals : Solution) : Prop :=
  ∀ g ∈ goals, g.resolved = false → g.Holds D θ

/-- The run of goals deeper than a depth at the beginning of a list. -/
def below (depth : Nat) (behind : Solution) : Solution :=
  behind.takeWhile fun g => depth < g.depth

/-- Every discharged goal holds under a valuation if the open goals in its run do. -/
def Supported (D : Meaning) : Solution → Prop
  | [] => True
  | g :: behind =>
    (g.resolved = true → ∀ θ, OpenHold D θ (below g.depth behind) → g.Holds D θ) ∧
      Supported D behind

variable {D : Meaning}

theorem openHold_cons {θ : Valuation} {g : Goal} {goals : Solution} :
    OpenHold D θ (g :: goals) ↔ (g.resolved = false → g.Holds D θ) ∧ OpenHold D θ goals := by
  simp [OpenHold]

theorem openHold_append {θ : Valuation} {goals others : Solution} :
    OpenHold D θ (goals ++ others) ↔ OpenHold D θ goals ∧ OpenHold D θ others := by
  simp only [OpenHold, List.mem_append, or_imp, forall_and]

theorem below_cons_of_lt {depth : Nat} {g : Goal} (h : depth < g.depth) (behind : Solution) :
    below depth (g :: behind) = g :: below depth behind := by
  simp [below, h]

theorem below_cons_of_not_lt {depth : Nat} {g : Goal} (h : ¬ depth < g.depth) (behind : Solution) :
    below depth (g :: behind) = [] := by
  simp [below, h]

theorem below_append_of_forall {depth : Nat} {goals : Solution} (h : ∀ g ∈ goals, depth < g.depth)
    (behind : Solution) : below depth (goals ++ behind) = goals ++ below depth behind := by
  rw [below, List.takeWhile_append_of_pos (by simpa using h), ← below]

/-! ### Substitution -/

theorem holds_substitute {θ : Valuation} (b : Bindings) (g : Goal) :
    (g.substitute b).Holds D θ ↔ g.Holds D (b.under θ) := by
  rw [Goal.substitute_eq, Goal.Holds, Goal.Holds, Bindings.values_substitute]
  rfl

@[simp] theorem resolved_substitute (b : Bindings) (g : Goal) :
    (g.substitute b).resolved = g.resolved := by
  rw [Goal.substitute_eq]

@[simp] theorem depth_substitute (b : Bindings) (g : Goal) :
    (g.substitute b).depth = g.depth := by
  rw [Goal.substitute_eq]

@[simp] theorem fact_substitute (b : Bindings) (g : Goal) :
    (g.substitute b).fact = b.substitute g.fact := by
  rw [Goal.substitute_eq]

theorem below_map_substitute (b : Bindings) (depth : Nat) (behind : Solution) :
    below depth (behind.map (Goal.substitute b)) = (below depth behind).map (Goal.substitute b) := by
  simp [below, List.takeWhile_map, Function.comp_def]

theorem openHold_map_substitute {θ : Valuation} (b : Bindings) (goals : Solution) :
    OpenHold D θ (goals.map (Goal.substitute b)) ↔ OpenHold D (b.under θ) goals := by
  simp [OpenHold, holds_substitute]

theorem supported_map_substitute (b : Bindings) {goals : Solution} (h : Supported D goals) :
    Supported D (goals.map (Goal.substitute b)) := by
  induction goals with
  | nil => trivial
  | cons g behind ih =>
    refine ⟨fun hres θ hopen => ?_, ih h.2⟩
    rw [depth_substitute, below_map_substitute, openHold_map_substitute] at hopen
    rw [resolved_substitute] at hres
    exact (holds_substitute b g).2 (h.1 hres _ hopen)

/-! ### Splicing -/

/-- What discharging a goal by a clause gives: the goal holds, once the bindings are made, under the
valuations under which the goals of the body hold. -/
def Yields (D : Meaning) (b : Bindings) (body : List Fact) (g : Goal) : Prop :=
  ∀ θ, (∀ f ∈ body, D f.functor (f.values θ)) → g.Holds D (b.under θ)

private theorem openHold_pending {θ : Valuation} {depth : Nat} {body : List Fact} :
    OpenHold D θ (body.map (Goal.pending depth)) ↔ ∀ f ∈ body, D f.functor (f.values θ) := by
  simp [OpenHold, Goal.pending, Goal.Holds]

/-- If the open goals of a run hold after a goal is discharged, those of the run before do. -/
private theorem openHold_below_of_discharge {b : Bindings} {body : List Fact} {position : Nat}
    {goals : Solution} {g : Goal} (hg : goals[position]? = some g) (hyields : Yields D b body g)
    {depth : Nat} {θ : Valuation}
    (hopen : OpenHold D θ (below depth (discharge b body position goals))) :
    OpenHold D (b.under θ) (below depth goals) := by
  induction goals generalizing position with
  | nil => simp at hg
  | cons first behind ih =>
    by_cases hd : depth < first.depth
    · rw [below_cons_of_lt hd, openHold_cons]
      cases position with
      | zero =>
        obtain rfl : first = g := by simpa using hg
        rw [discharge, below_cons_of_lt (by simpa using hd), openHold_cons,
          below_append_of_forall (by simp [Goal.pending]; omega), openHold_append, openHold_pending,
          substituteAll_eq, below_map_substitute, openHold_map_substitute] at hopen
        exact ⟨fun _ => hyields θ hopen.2.1, hopen.2.2⟩
      | succ position =>
        rw [discharge, below_cons_of_lt (by simpa using hd), openHold_cons, resolved_substitute,
          holds_substitute] at hopen
        exact ⟨hopen.1, ih (by simpa using hg) hopen.2⟩
    · rw [below_cons_of_not_lt hd]
      simp [OpenHold]

private theorem supported_pending_append (depth : Nat) (body : List Fact) {rest : Solution}
    (hrest : Supported D rest) : Supported D (body.map (Goal.pending depth) ++ rest) := by
  induction body with
  | nil => exact hrest
  | cons f body ih => exact ⟨fun hres => absurd hres (by simp [Goal.pending]), ih⟩

/-- Discharging a goal keeps every discharged goal supported. -/
theorem supported_discharge {b : Bindings} {body : List Fact} {position : Nat} {goals : Solution}
    {g : Goal} (hg : goals[position]? = some g) (hyields : Yields D b body g)
    (h : Supported D goals) : Supported D (discharge b body position goals) := by
  induction goals generalizing position with
  | nil => simp at hg
  | cons first behind ih =>
    cases position with
    | zero =>
      obtain rfl : first = g := by simpa using hg
      refine ⟨fun _ θ hopen => ?_, ?_⟩
      · rw [depth_substitute, below_append_of_forall (by simp [Goal.pending]), openHold_append,
          openHold_pending] at hopen
        exact (holds_substitute b first).2 (hyields θ hopen.1)
      · rw [substituteAll_eq]
        exact supported_pending_append _ _ (supported_map_substitute b h.2)
    | succ position =>
      have hg' : behind[position]? = some g := by simpa using hg
      refine ⟨fun hres θ hopen => ?_, ih hg' h.2⟩
      rw [depth_substitute] at hopen
      rw [resolved_substitute] at hres
      exact (holds_substitute b first).2
        (h.1 hres _ (openHold_below_of_discharge hg' hyields hopen))

/-! ### Compaction -/

/-- If the open goals of a run hold after discharged goals are dropped, those of the run before do. -/
theorem openHold_below_of_dropDischarged {memoized : String → Bool} {depth : Nat}
    {θ : Valuation} {goals : Solution}
    (hopen : OpenHold D θ (below depth (dropDischarged memoized goals))) :
    OpenHold D θ (below depth goals) := by
  induction goals with
  | nil => simp [below, OpenHold]
  | cons g behind ih =>
    by_cases hd : depth < g.depth
    · rw [below_cons_of_lt hd, openHold_cons]
      rw [dropDischarged] at hopen
      split at hopen
      · rw [below_cons_of_lt hd, openHold_cons] at hopen
        exact ⟨hopen.1, ih hopen.2⟩
      · rename_i hdropped
        refine ⟨fun hres => ?_, ih hopen⟩
        simp [hres] at hdropped
    · rw [below_cons_of_not_lt hd]
      simp [OpenHold]

/-- Dropping discharged goals keeps the others supported. -/
theorem supported_dropDischarged (memoized : String → Bool) {goals : Solution}
    (h : Supported D goals) : Supported D (dropDischarged memoized goals) := by
  induction goals with
  | nil => trivial
  | cons g behind ih =>
    rw [dropDischarged]
    split
    · exact ⟨fun hres θ hopen => h.1 hres θ (openHold_below_of_dropDischarged hopen), ih h.2⟩
    · exact ih h.2

theorem dropDischarged_sublist (memoized : String → Bool) (goals : Solution) :
    (dropDischarged memoized goals).Sublist goals := by
  induction goals with
  | nil => exact List.Sublist.slnil
  | cons g behind ih =>
    rw [dropDischarged]
    split
    · exact ih.cons_cons g
    · exact ih.cons g

/-- A goal that is found proven holds under every valuation; it is ground and memoized. -/
theorem holds_of_mem_provenGoals {memoized : String → Bool} {goals : Solution} {f : Fact}
    (h : Supported D goals) (hf : f ∈ provenGoals memoized goals) :
    (∃ g ∈ goals, g.fact = f) ∧ memoized f.key = true ∧ f.isGround = true ∧
      ∀ θ, D f.functor (f.values θ) := by
  induction goals with
  | nil => simp [provenGoals] at hf
  | cons g behind ih =>
    have hrest (hf : f ∈ provenGoals memoized behind) :
        (∃ g' ∈ g :: behind, g'.fact = f) ∧ memoized f.key = true ∧ f.isGround = true ∧
          ∀ θ, D f.functor (f.values θ) := by
      obtain ⟨⟨g', hg', hfact⟩, hproven⟩ := ih h.2 hf
      exact ⟨⟨g', List.mem_cons_of_mem g hg', hfact⟩, hproven⟩
    rw [provenGoals] at hf
    split at hf
    · rename_i hproven
      rcases List.mem_cons.1 hf with rfl | hf
      · simp only [Bool.and_eq_true, Bool.not_eq_true'] at hproven
        obtain ⟨⟨⟨hres, hmemo⟩, hnone⟩, hground⟩ := hproven
        refine ⟨⟨g, List.mem_cons_self, rfl⟩, hmemo, hground, fun θ => h.1 hres θ ?_⟩
        intro g' hg' hopen
        have hclosed := List.any_eq_false.1 hnone g' hg'
        simp [hopen] at hclosed
      · exact hrest hf
    · exact hrest hf

/-- Without open goals every discharged goal holds. -/
theorem Supported.holds {g : Goal} {behind : Solution} (h : Supported D (g :: behind))
    (hres : g.resolved = true) (hnone : hasPending behind = false) (θ : Valuation) :
    g.Holds D θ := by
  refine h.1 hres θ fun g' hg' hopen => ?_
  have hmem : g' ∈ behind := List.takeWhile_subset _ hg'
  have hclosed := List.any_eq_false.1 hnone g' hmem
  simp [hopen] at hclosed

/-- Only facts of memoized predicates are to be recorded. -/
theorem memoized_of_mem_compact {memoized : String → Bool} {solution : Solution} {f : Fact}
    (h : f ∈ (compact memoized solution).2) : memoized f.key = true := by
  have hgoals : ∀ goals : Solution, f ∈ provenGoals memoized goals → memoized f.key = true := by
    intro goals
    induction goals with
    | nil => simp [provenGoals]
    | cons g behind ih =>
      rw [provenGoals]
      split
      · rename_i hg
        simp only [Bool.and_eq_true] at hg
        intro hf
        rcases List.mem_cons.1 hf with rfl | hf
        · exact hg.1.1.2
        · exact ih hf
      · exact ih
  cases solution with
  | nil => simp [compact] at h
  | cons query goals =>
    rw [compact_cons] at h
    exact hgoals goals h

end Horn.Search
