import Horn.Proofs.Derivation
import Horn.Proofs.Search.Passes
import Horn.Proofs.Search.Pending

/-!
The predicate of the query stays at the first goal.

Expanding a solution puts only bodies of clauses behind its first goal. So if no body calls the predicate
of the query, no goal behind the first one does, in any solution of a run and whatever the memo holds:
`Listing.isolated_run`.
-/

set_option autoImplicit false
set_option relaxedAutoImplicit false

namespace Horn.Search

variable {s : Setting} {root : Fact} {solution : Solution}

/-- No goal behind the first one calls the predicate of the query. -/
def Isolated (root : Fact) (solution : Solution) : Prop :=
  ∀ g ∈ solution.tail, ¬ g.fact.IsCallOf root

/-- No clause that a goal is tried with calls the predicate of the query. -/
def Setting.Spares (s : Setting) (root : Fact) : Prop :=
  ∀ key, ∀ c ∈ s.program.candidates key, ∀ f ∈ c.body, ¬ f.IsCallOf root

theorem isolated_singleton (root : Fact) (g : Goal) : Isolated root [g] := by
  intro g' hg'
  exact absurd hg' List.not_mem_nil

private theorem isCallOf_substitute {b : Bindings} {f : Fact} :
    (b.substitute f).IsCallOf root ↔ f.IsCallOf root := by
  simp [Fact.IsCallOf]

theorem Isolated.discharge (h : Isolated root solution) {body : List Fact}
    (hbody : ∀ f ∈ body, ¬ f.IsCallOf root) (b : Bindings) (position : Nat) :
    Isolated root (discharge b body position solution) := by
  cases solution with
  | nil =>
    rw [Search.discharge]
    exact h
  | cons query goals =>
    intro g hg hcall
    have hold (old : Goal) (hmem : old ∈ goals) (heq : g.fact = b.substitute old.fact) : False := by
      rw [heq, isCallOf_substitute] at hcall
      exact h old hmem hcall
    cases position with
    | zero =>
      rw [Search.discharge, substituteAll_eq, List.tail_cons, List.mem_append] at hg
      rcases hg with hnew | hsubstituted
      · obtain ⟨f, hf, rfl⟩ := List.mem_map.1 hnew
        exact hbody f hf hcall
      · obtain ⟨old, hmem, rfl⟩ := List.mem_map.1 hsubstituted
        exact hold old hmem (by simp)
    | succ position =>
      rcases mem_discharge hg with ⟨old, hmem, heq⟩ | hnew
      · exact hold old hmem heq
      · exact hbody _ hnew hcall

/-- Compaction drops goals behind the first one only. -/
theorem Isolated.compact (h : Isolated root solution) (memoized : String → Bool) :
    Isolated root (compact memoized solution).1 := by
  cases solution with
  | nil => exact h
  | cons query goals =>
    rw [compact_cons]
    intro g hg
    exact h g ((dropDischarged_sublist memoized goals).subset hg)

/-- No resolvent brings in the predicate of the query. -/
theorem Setting.Spares.of_resolvent (spares : s.Spares root) {l : Ledger} {next : Nat}
    {goal head : Fact} {body : List Fact} (h : Resolvent s l next goal head body) (b : Bindings) :
    ∀ f ∈ body.map b.substitute, ¬ f.IsCallOf root := by
  intro g hg
  obtain ⟨f, hf, rfl⟩ := List.mem_map.1 hg
  rw [isCallOf_substitute]
  cases h with
  | value _ _ _ _ => exact absurd hf List.not_mem_nil
  | recorded _ _ => exact absurd hf List.not_mem_nil
  | renamed _ candidate _ _ =>
    obtain ⟨called, hcalled, rfl⟩ := List.mem_map.1 hf
    have hspared := spares _ _ candidate called hcalled
    simpa [Fact.IsCallOf] using hspared

theorem Isolated.expand (spares : s.Spares root) (h : Isolated root solution) {l : Ledger}
    {child : Solution} (hchild : child ∈ (expand s l solution).1) : Isolated root child := by
  obtain ⟨before, g, behind, head, body, b, rfl, -, hresolvent, -, rfl⟩ := exists_of_mem_expand hchild
  exact (h.discharge (spares.of_resolvent hresolvent b) b _).compact _

/-- All solutions that wait in a run are isolated. -/
theorem Listing.isolated_run (spares : s.Spares root) {p : Listing}
    (start : ∀ a ∈ p.waiting, Isolated root a) (stopEarly : Bool) (deadline : Option Nat)
    (passes : Nat) : ∀ a ∈ (run s stopEarly deadline passes p).2.waiting, Isolated root a := by
  refine run_induction (P := fun p => ∀ a ∈ p.waiting, Isolated root a) start ?_ passes
  intro p solution behind hwaiting next
  have hcons := waiting_of_next? next
  have hsolution : Isolated root solution := hwaiting solution (by simp [hcons])
  exact forall_waiting_advance hcons hwaiting fun a ha => hsolution.expand spares ha

end Horn.Search
