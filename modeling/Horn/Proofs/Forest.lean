import Mathlib.Data.List.Forall2
import Horn.Proofs.Derivation

/-!
Forests of derivations.

`Forest clauses n goals` says that ground goals have derivations in which `n` instances of clauses
are used altogether, all of them with their conditions fulfilled, and no built-in. Goals are taken
off at the front and the goals of a body are put there, so a forest is what a search that always
expands the first open goal works off.
-/

set_option autoImplicit false
set_option relaxedAutoImplicit false

namespace Horn

open Builtin (Registry)

/-- A predicate with a tuple of values. -/
abbrev Tuple := String × List Literal

/-- The tuple that a fact stands for under a valuation. -/
def Fact.tuple (f : Fact) (θ : Valuation) : Tuple :=
  (f.functor, f.values θ)

/-- The same predicate and equal values. -/
def Tuple.Same (a b : Tuple) : Prop :=
  a.1 = b.1 ∧ (a.2 == b.2) = true

/-- Derivations of ground goals, with the number of instances of clauses used. -/
inductive Forest (clauses : List Clause) : Nat → List Tuple → Prop
  | nil : Forest clauses 0 []
  | cons {c : Clause} {θ : Valuation} {values : List Literal} {goals : List Tuple} {n : Nat}
      (mem : c ∈ clauses) (admits : c.Admits θ) (head : (values == c.head.values θ) = true)
      (rest : Forest clauses n (c.body.map (Fact.tuple · θ) ++ goals)) :
      Forest clauses (n + 1) ((c.head.functor, values) :: goals)

namespace Forest

variable {clauses : List Clause} {n : Nat} {goals : List Tuple}

/-- A forest for more goals, of a derivation and a forest. -/
theorem exists_cons {r : Registry} {name : String} {values : List Literal}
    (h : Derivable r clauses Clause.Admits name values)
    (user : ∀ c ∈ clauses, ∀ g ∈ c.body, r.contains g.functor g.arity = false)
    (goal : r.contains name values.length = false) :
    ∀ n goals, Forest clauses n goals → ∃ k, Forest clauses k ((name, values) :: goals) := by
  induction h with
  | builtin ambient evaluated _ =>
    have hcontains := Registry.contains_of_evaluate evaluated
    simp_all
  | @clause c θ values mem allowed _ head ih =>
    intro n goals hgoals
    have hbody : ∀ body : List Fact, body ⊆ c.body →
        ∃ k, Forest clauses k (body.map (Fact.tuple · θ) ++ goals) := by
      intro body
      induction body with
      | nil => exact fun _ => ⟨n, hgoals⟩
      | cons g body ihBody =>
        intro hsub
        rw [List.cons_subset] at hsub
        obtain ⟨k, hk⟩ := ihBody hsub.2
        exact ih g hsub.1 (by simpa using user c mem g hsub.1) k _ hk
    obtain ⟨k, hk⟩ := hbody c.body (List.Subset.refl _)
    exact ⟨k + 1, .cons mem allowed head hk⟩

/-- What stands behind some goals has a forest that is no larger. -/
theorem exists_of_append {front behind : List Tuple} (h : Forest clauses n (front ++ behind)) :
    ∃ k ≤ n, Forest clauses k behind := by
  generalize hgoals : front ++ behind = goals at h
  induction h generalizing front with
  | nil =>
    obtain ⟨-, rfl⟩ := List.append_eq_nil_iff.1 hgoals
    exact ⟨0, Nat.le_refl 0, .nil⟩
  | @cons c θ values goals n mem admits head rest ih =>
    cases front with
    | nil =>
      rw [List.nil_append] at hgoals
      exact ⟨n + 1, Nat.le_refl _, hgoals ▸ .cons mem admits head rest⟩
    | cons first front =>
      obtain ⟨-, rfl⟩ := List.cons.inj hgoals
      obtain ⟨k, hk, hforest⟩ := ih (List.append_assoc _ front _)
      exact ⟨k, Nat.le_succ_of_le hk, hforest⟩

/-- The first goal of a forest is the head of an instance of a clause, and the goals of the body
take its place in a forest that is one smaller. -/
theorem exists_instance {first : Tuple} (h : Forest clauses n (first :: goals)) :
    ∃ c ∈ clauses, ∃ θ k, n = k + 1 ∧ c.Admits θ ∧ c.head.functor = first.1 ∧
      (first.2 == c.head.values θ) = true ∧ Forest clauses k (c.body.map (Fact.tuple · θ) ++ goals) := by
  cases h with
  | cons mem admits head rest => exact ⟨_, mem, _, _, rfl, admits, rfl, head, rest⟩

/-- Behind the first goal there is a forest that is smaller. -/
theorem exists_of_cons {first : Tuple} (h : Forest clauses n (first :: goals)) :
    ∃ k < n, Forest clauses k goals := by
  obtain ⟨c, -, θ, m, rfl, -, -, -, rest⟩ := h.exists_instance
  obtain ⟨k, hk, hforest⟩ := exists_of_append rest
  exact ⟨k, Nat.lt_succ_of_le hk, hforest⟩

/-- Every goal of a forest has a clause of its predicate. -/
theorem exists_clause {goal : Tuple} (h : Forest clauses n goals) (mem : goal ∈ goals) :
    ∃ c ∈ clauses, c.head.functor = goal.1 ∧ c.head.arity = goal.2.length := by
  obtain ⟨front, behind, rfl⟩ := List.append_of_mem mem
  obtain ⟨k, -, hforest⟩ := h.exists_of_append
  obtain ⟨c, known, θ, -, -, -, functor, head, -⟩ := hforest.exists_instance
  exact ⟨c, known, functor, by simpa using (List.length_eq_of_beq head).symm⟩

/-- Every goal of a forest has a derivation. -/
theorem derivable {r : Registry} {goal : Tuple} (h : Forest clauses n goals) (mem : goal ∈ goals) :
    Derivable r clauses Clause.Admits goal.1 goal.2 := by
  induction h generalizing goal with
  | nil => exact absurd mem List.not_mem_nil
  | @cons c θ _ goals _ known admits head _ ih =>
    rcases List.mem_cons.1 mem with rfl | mem
    · refine .clause known admits (fun g hg => ?_) head
      have hbody : g.tuple θ ∈ c.body.map (Fact.tuple · θ) ++ goals :=
        List.mem_append_left _ (List.mem_map_of_mem hg)
      exact ih hbody
    · exact ih (List.mem_append_right _ mem)

/-- Equal goals have forests of the same size. -/
theorem congr {others : List Tuple} (h : Forest clauses n goals)
    (same : List.Forall₂ Tuple.Same goals others) : Forest clauses n others := by
  induction h generalizing others with
  | nil =>
    cases same
    exact .nil
  | @cons c θ values goals n mem admits head rest ih =>
    cases same with
    | @cons _ other _ others first behind =>
      obtain ⟨functor, us⟩ := other
      obtain ⟨rfl, heq⟩ : c.head.functor = functor ∧ (values == us) = true := first
      refine .cons mem admits (BEq.trans (BEq.symm heq) head) (ih ?_)
      refine List.rel_append ?_ behind
      rw [List.forall₂_same]
      exact fun _ _ => ⟨rfl, BEq.rfl⟩

end Forest

end Horn
