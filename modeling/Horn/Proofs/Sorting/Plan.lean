import Horn.Proofs.Comparison
import Mathlib.Data.List.FinRange
import Mathlib.Data.List.ProdSigma

/-!
Sorts that only compare.

A plan for a number of values asks how two of them compare, goes on as the answer tells, and in the end
arranges them. A stable sort is a plan for every number that arranges values in order under every total
comparison; it need not ask for every pair. Main statement: if an answer is missing for some pair of values
under a partial order, every stable sort asks for such a pair.
-/

set_option autoImplicit false
set_option relaxedAutoImplicit false

namespace Horn.Sorting

/-- How to arrange values by comparing two of them at a time. -/
inductive Plan (n : Nat) where
  | done (places : List (Fin n))
  | ask (i j : Fin n) (next : Ordering → Plan n)

namespace Plan

variable {n : Nat}

/-- The arrangement under a total comparison. -/
def arrange (total : Fin n → Fin n → Ordering) : Plan n → List (Fin n)
  | done places => places
  | ask i j next => (next (total i j)).arrange total

/-- Whether each answer was there, and the arrangement. A missing answer counts as "equal". -/
def attempt (compare? : Fin n → Fin n → Option Ordering) : Plan n → Bool × List (Fin n)
  | done places => (true, places)
  | ask i j next =>
    match compare? i j with
    | some order => (next order).attempt compare?
    | none => (false, ((next .eq).attempt compare?).2)

/-- As long as no answer is missing, a total comparison with the same answers leads to the same
arrangement. -/
theorem attempt_eq_arrange {compare? : Fin n → Fin n → Option Ordering}
    {total : Fin n → Fin n → Ordering} (agrees : ∀ {i j order}, compare? i j = some order → total i j = order)
    (plan : Plan n) (complete : (plan.attempt compare?).1 = true) :
    (plan.attempt compare?).2 = plan.arrange total := by
  induction plan with
  | done places => rfl
  | ask i j next ih =>
    unfold attempt at complete ⊢
    unfold arrange
    cases hanswer : compare? i j with
    | none =>
      rw [hanswer] at complete
      cases complete
    | some order =>
      rw [hanswer] at complete
      rw [agrees hanswer]
      exact ih order complete

theorem attempt_complete {compare? : Fin n → Fin n → Option Ordering}
    (answers : ∀ i j, (compare? i j).isSome) (plan : Plan n) : (plan.attempt compare?).1 = true := by
  induction plan with
  | done places => rfl
  | ask i j next ih =>
    obtain ⟨order, hanswer⟩ := Option.isSome_iff_exists.1 (answers i j)
    unfold attempt
    rw [hanswer]
    exact ih order

end Plan

/-- All places in the order of their values, and places of equal values as they were. -/
def IsStableArrangement {n : Nat} (total : Fin n → Fin n → Ordering) (places : List (Fin n)) : Prop :=
  places.Perm (List.finRange n) ∧ places.Pairwise fun i j => total i j = .lt ∨ total i j = .eq ∧ i < j

theorem IsStableArrangement.pairwise_isLE {n : Nat} {total : Fin n → Fin n → Ordering} {places : List (Fin n)}
    (h : IsStableArrangement total places) : places.Pairwise fun i j => (total i j).isLE := by
  refine h.2.imp ?_
  rintro i j (hij | ⟨hij, -⟩)
  · rw [hij]
    rfl
  · rw [hij]
    rfl

/-- A plan for every number of values that arranges them in order, equal ones as they were. -/
structure StableSort where
  plan : (n : Nat) → Plan n
  stable : ∀ (n : Nat) (total : Fin n → Fin n → Ordering), Std.TransCmp total →
    IsStableArrangement total ((plan n).arrange total)

section Detection

variable {α : Type} {compare? : α → α → Option Ordering} {n : Nat}

/-- A total comparison of values is one of the places where they stand. -/
theorem transCmp_places {total : α → α → Ordering} (trans : Std.TransCmp total) (values : Fin n → α) :
    Std.TransCmp fun i j => total (values i) (values j) where
  eq_swap := Std.OrientedCmp.eq_swap
  isLE_trans := Std.TransCmp.isLE_trans

/-- A stable sort that had every answer it asked for arranges the values in the order of every total
comparison with the same answers. -/
theorem StableSort.stable_of_complete (sorter : StableSort) {values : Fin n → α}
    (complete : ((sorter.plan n).attempt fun i j => compare? (values i) (values j)).1 = true)
    {total : α → α → Ordering} (h : Completes total compare?) :
    IsStableArrangement (fun i j => total (values i) (values j))
      ((sorter.plan n).attempt fun i j => compare? (values i) (values j)).2 := by
  rw [Plan.attempt_eq_arrange h.agrees _ complete]
  exact sorter.stable n _ (transCmp_places h.trans values)

/-- It had answers for all pairs. If two values could not be compared, some total comparison would put
one first and some other one the other, but there is only one arrangement. -/
theorem StableSort.comparable_of_complete (sorter : StableSort) (h : IsPartialComparison compare?)
    {values : Fin n → α}
    (complete : ((sorter.plan n).attempt fun i j => compare? (values i) (values j)).1 = true) (i j : Fin n) :
    (compare? (values i) (values j)).isSome := by
  rw [Option.isSome_iff_ne_none]
  intro hij
  have hne : i ≠ j := by
    rintro rfl
    rw [h.compare?_self] at hij
    cases hij
  obtain ⟨first, hfirst, hlt⟩ := h.exists_completes_lt hij
  obtain ⟨second, hsecond, hgt⟩ := h.exists_completes_lt (h.none_iff.2 hij)
  have := hfirst.trans
  have := hsecond.trans
  have harranged := sorter.stable_of_complete complete hfirst
  have harranged' := sorter.stable_of_complete complete hsecond
  have hmem : ∀ k, k ∈ ((sorter.plan n).attempt fun i j => compare? (values i) (values j)).2 :=
    fun k => harranged.1.mem_iff.2 (List.mem_finRange k)
  -- One of the two places comes first, and that suits one of the two comparisons only.
  have hboth := harranged.pairwise_isLE.and harranged'.pairwise_isLE
  rcases rel_or_rel_of_pairwise hboth (hmem i) (hmem j) hne with ⟨-, hle⟩ | ⟨hle, -⟩
  · exact not_isLE_of_lt hgt hle
  · exact not_isLE_of_lt hlt hle

theorem StableSort.complete_iff (sorter : StableSort) (h : IsPartialComparison compare?)
    {values : Fin n → α} :
    ((sorter.plan n).attempt fun i j => compare? (values i) (values j)).1 = true ↔
      ∀ i j, (compare? (values i) (values j)).isSome :=
  ⟨sorter.comparable_of_complete h, fun answers => Plan.attempt_complete answers _⟩

/-- So the values are in order. -/
theorem StableSort.pairwise_of_complete (sorter : StableSort) (h : IsPartialComparison compare?)
    {values : Fin n → α}
    (complete : ((sorter.plan n).attempt fun i j => compare? (values i) (values j)).1 = true) :
    (((sorter.plan n).attempt fun i j => compare? (values i) (values j)).2.map values).Pairwise
      (AtMost compare?) := by
  obtain ⟨total, hcompletes⟩ := h.exists_completes
  refine List.pairwise_map.2 ((sorter.stable_of_complete complete hcompletes).pairwise_isLE.imp ?_)
  intro i j hle
  exact hcompletes.atMost (sorter.comparable_of_complete h complete i j) hle

end Detection

/-! ### A stable sort that asks for every pair -/

/-- Asks how pairs compare, besides what is known, and merges by the answers. -/
def Plan.askAll {n : Nat} (known : Fin n → Fin n → Ordering) : List (Fin n × Fin n) → Plan n
  | [] => .done ((List.finRange n).mergeSort fun i j => (compareLex known compare i j).isLE)
  | (i, j) :: pairs =>
    .ask i j fun order => askAll (fun k l => if (k, l) = (i, j) then order else known k l) pairs

theorem Plan.arrange_askAll {n : Nat} (total known : Fin n → Fin n → Ordering)
    (pairs : List (Fin n × Fin n)) :
    (askAll known pairs).arrange total = (List.finRange n).mergeSort fun i j =>
      (compareLex (fun k l => if (k, l) ∈ pairs then total k l else known k l) compare i j).isLE := by
  induction pairs generalizing known with
  | nil => simp [askAll, arrange]
  | cons pair pairs ih =>
    obtain ⟨i, j⟩ := pair
    have hknown : (fun k l => if (k, l) ∈ pairs then total k l
        else if (k, l) = (i, j) then total i j else known k l) =
        fun k l => if (k, l) ∈ (i, j) :: pairs then total k l else known k l := by
      funext k l
      by_cases hpair : (k, l) = (i, j)
      · cases hpair
        simp
      · simp [hpair]
    rw [askAll, arrange, ih, hknown]

/-- The sort that asks for every pair. -/
def askingSort : StableSort where
  plan n := .askAll (fun _ _ => .eq) ((List.finRange n).product (List.finRange n))
  stable := by
    intro n total trans
    have hall : (fun k l => if (k, l) ∈ (List.finRange n).product (List.finRange n) then total k l
        else .eq) = total := by
      funext k l
      exact if_pos (List.mem_product.2 ⟨List.mem_finRange k, List.mem_finRange l⟩)
    rw [Plan.arrange_askAll, hall]
    have hperm := List.mergeSort_perm (List.finRange n) fun i j => (compareLex total compare i j).isLE
    have hdistinct := List.nodup_iff_pairwise_ne.1 (hperm.nodup_iff.2 (List.nodup_finRange n))
    have hsorted : ((List.finRange n).mergeSort fun i j => (compareLex total compare i j).isLE).Pairwise
        fun i j => (compareLex total compare i j).isLE :=
      List.pairwise_mergeSort (fun _ _ _ => Std.TransCmp.isLE_trans) isLE_or_isLE _
    refine ⟨hperm, (hsorted.and hdistinct).imp ?_⟩
    rintro i j ⟨hle, hne⟩
    unfold compareLex at hle
    cases htotal : total i j with
    | lt => exact .inl rfl
    | eq =>
      rw [htotal] at hle
      have hplaces : i.val ≤ j.val := Nat.isLE_compare.1 hle
      exact .inr ⟨rfl, lt_of_le_of_ne hplaces hne⟩
    | gt =>
      rw [htotal] at hle
      cases hle

end Horn.Sorting
