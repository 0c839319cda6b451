import Mathlib.Data.List.Pairwise
import Mathlib.Order.Extension.Linear

/-!
Comparisons without an answer for some pairs.

A comparison that is a partial order can be completed to one that is a total order and gives the same
answers. Main statement: two values that cannot be compared can be put in either order by a total one.
-/

set_option autoImplicit false
set_option relaxedAutoImplicit false

namespace Horn

variable {α : Type} {compare? : α → α → Option Ordering} {a b c : α}

/-- Of two elements one comes first. -/
theorem rel_or_rel_of_pairwise {R : α → α → Prop} {items : List α} (h : items.Pairwise R) (ha : a ∈ items)
    (hb : b ∈ items) (hne : a ≠ b) : R a b ∨ R b a := by
  have : Std.Symm fun a b => R a b ∨ R b a := ⟨fun _ _ => Or.symm⟩
  have hsymm : items.Pairwise fun a b => R a b ∨ R b a := h.imp Or.inl
  exact hsymm.forall ha hb hne

section Total

variable {total : α → α → Ordering} [Std.TransCmp total]

theorem isLE_or_isLE (a b : α) : ((total a b).isLE || (total b a).isLE) = true := by
  have hswap : total b a = (total a b).swap := Std.OrientedCmp.eq_swap
  rw [hswap]
  cases total a b <;> rfl

theorem not_isLE_of_lt (h : total a b = .lt) : ¬(total b a).isLE := by
  have hswap : total b a = (total a b).swap := Std.OrientedCmp.eq_swap
  rw [hswap, h]
  decide

end Total

section Order

open Classical in
/-- The comparison that an order makes. -/
noncomputable def ofOrder (r : α → α → Prop) (a b : α) : Ordering :=
  if a = b then .eq else if r a b then .lt else .gt

variable {r : α → α → Prop}

theorem ofOrder_eq_lt (hne : a ≠ b) (hab : r a b) : ofOrder r a b = .lt := by
  rw [ofOrder, if_neg hne, if_pos hab]

theorem ofOrder_eq_gt [IsLinearOrder α r] (hne : a ≠ b) (hba : r b a) : ofOrder r a b = .gt := by
  have hnot : ¬r a b := fun hab => hne (antisymm_of r hab hba)
  rw [ofOrder, if_neg hne, if_neg hnot]

theorem ofOrder_isLE [IsLinearOrder α r] : (ofOrder r a b).isLE ↔ r a b := by
  by_cases hab : a = b
  · rw [ofOrder, if_pos hab]
    exact iff_of_true rfl (hab ▸ refl_of r a)
  · rcases total_of r a b with h | h
    · rw [ofOrder_eq_lt hab h]
      exact iff_of_true rfl h
    · rw [ofOrder_eq_gt hab h]
      exact iff_of_false (by decide) fun h' => hab (antisymm_of r h' h)

theorem transCmp_ofOrder (r : α → α → Prop) [IsLinearOrder α r] : Std.TransCmp (ofOrder r) where
  eq_swap := by
    intro a b
    by_cases hab : a = b
    · rw [ofOrder, ofOrder, if_pos hab, if_pos hab.symm]
      rfl
    · rcases total_of r a b with h | h
      · rw [ofOrder_eq_lt hab h, ofOrder_eq_gt (Ne.symm hab) h]
        rfl
      · rw [ofOrder_eq_gt hab h, ofOrder_eq_lt (Ne.symm hab) h]
        rfl
  isLE_trans hab hbc := ofOrder_isLE.2 (trans_of r (ofOrder_isLE.1 hab) (ofOrder_isLE.1 hbc))

end Order

/-- A comparison that answers as a partial order does, and has no answer for incomparable values. -/
structure IsPartialComparison (compare? : α → α → Option Ordering) : Prop where
  eq_iff : ∀ {a b}, compare? a b = some .eq ↔ a = b
  swap : ∀ {a b}, compare? b a = (compare? a b).map Ordering.swap
  lt_trans : ∀ {a b c}, compare? a b = some .lt → compare? b c = some .lt → compare? a c = some .lt

/-- A total comparison that has the answers of another one. -/
structure Completes (total : α → α → Ordering) (compare? : α → α → Option Ordering) : Prop where
  trans : Std.TransCmp total
  agrees : ∀ {a b order}, compare? a b = some order → total a b = order

/-- A value does not come after another one, and the two can be compared. -/
def AtMost (compare? : α → α → Option Ordering) (a b : α) : Prop :=
  compare? a b = some .lt ∨ compare? a b = some .eq

/-- The order of a comparison, with everything up to the first value put before everything from the second
one on. -/
def Joined (compare? : α → α → Option Ordering) (a b x y : α) : Prop :=
  AtMost compare? x y ∨ AtMost compare? x a ∧ AtMost compare? b y

theorem Completes.atMost {total : α → α → Ordering} (h : Completes total compare?)
    (answer : (compare? a b).isSome) (hle : (total a b).isLE) : AtMost compare? a b := by
  obtain ⟨order, horder⟩ := Option.isSome_iff_exists.1 answer
  rw [h.agrees horder] at hle
  cases order with
  | lt => exact .inl horder
  | eq => exact .inr horder
  | gt => cases hle

theorem AtMost.isSome (h : AtMost compare? a b) : (compare? a b).isSome := by
  rcases h with h | h
  · rw [h]
    rfl
  · rw [h]
    rfl

namespace IsPartialComparison

theorem compare?_self (h : IsPartialComparison compare?) (a : α) : compare? a a = some .eq :=
  h.eq_iff.2 rfl

theorem gt_iff (h : IsPartialComparison compare?) : compare? b a = some .gt ↔ compare? a b = some .lt := by
  rw [h.swap]
  cases compare? a b with
  | none => simp
  | some order => cases order <;> simp

theorem ne_of_lt (h : IsPartialComparison compare?) (hab : compare? a b = some .lt) : a ≠ b := by
  rintro rfl
  rw [h.compare?_self] at hab
  cases hab

theorem none_iff (h : IsPartialComparison compare?) : compare? b a = none ↔ compare? a b = none := by
  rw [h.swap, Option.map_eq_none_iff]

theorem atMost_trans (h : IsPartialComparison compare?) (hab : AtMost compare? a b)
    (hbc : AtMost compare? b c) : AtMost compare? a c := by
  rcases hab with hab | hab
  · rcases hbc with hbc | hbc
    · exact .inl (h.lt_trans hab hbc)
    · exact h.eq_iff.1 hbc ▸ .inl hab
  · exact h.eq_iff.1 hab ▸ hbc

theorem atMost_antisymm (h : IsPartialComparison compare?) (hab : AtMost compare? a b)
    (hba : AtMost compare? b a) : a = b := by
  rcases hab with hab | hab
  · rcases hba with hba | hba
    · rw [← h.gt_iff, hab] at hba
      cases hba
    · exact (h.eq_iff.1 hba).symm
  · exact h.eq_iff.1 hab

/-- Values in order can all be compared. -/
theorem isSome_of_pairwise (h : IsPartialComparison compare?) {items : List α}
    (sorted : items.Pairwise (AtMost compare?)) : ∀ a ∈ items, ∀ b ∈ items, (compare? a b).isSome := by
  intro a ha b hb
  by_cases hab : a = b
  · rw [h.eq_iff.2 hab]
    rfl
  · rcases rel_or_rel_of_pairwise sorted ha hb hab with hle | hle
    · exact hle.isSome
    · rw [h.swap, Option.isSome_map]
      exact hle.isSome

theorem isPartialOrder (h : IsPartialComparison compare?) : IsPartialOrder α (AtMost compare?) where
  refl a := .inr (h.compare?_self a)
  trans _ _ _ := h.atMost_trans
  antisymm _ _ := h.atMost_antisymm

/-- The comparison with its two sides in the other places. -/
theorem flip (h : IsPartialComparison compare?) : IsPartialComparison fun a b => compare? b a where
  eq_iff := h.eq_iff.trans eq_comm
  swap := h.swap
  lt_trans hab hbc := h.lt_trans hbc hab

/-- A linear order that goes on from the comparison completes it. -/
theorem completes_ofOrder (h : IsPartialComparison compare?) (r : α → α → Prop) [IsLinearOrder α r]
    (goesOn : ∀ {a b}, AtMost compare? a b → r a b) : Completes (ofOrder r) compare? where
  trans := transCmp_ofOrder r
  agrees := by
    intro a b order hab
    cases order with
    | eq => exact if_pos (h.eq_iff.1 hab)
    | lt => exact ofOrder_eq_lt (h.ne_of_lt hab) (goesOn (.inl hab))
    | gt =>
      have hba := h.gt_iff.1 hab
      exact ofOrder_eq_gt (h.ne_of_lt hba).symm (goesOn (.inl hba))

/-- A partial order that goes on from the comparison is part of a total comparison. -/
theorem exists_completes_of_order (h : IsPartialComparison compare?) (r : α → α → Prop)
    [IsPartialOrder α r] (goesOn : ∀ {a b}, AtMost compare? a b → r a b) :
    ∃ total, Completes total compare? ∧ ∀ {a b}, r a b → a ≠ b → total a b = .lt := by
  obtain ⟨s, hs, hrs⟩ := extend_partialOrder r
  exact ⟨ofOrder s, h.completes_ofOrder s fun hab => hrs _ _ (goesOn hab),
    fun hab hne => ofOrder_eq_lt hne (hrs _ _ hab)⟩

theorem exists_completes (h : IsPartialComparison compare?) : ∃ total, Completes total compare? := by
  have := h.isPartialOrder
  obtain ⟨total, hcompletes, -⟩ := h.exists_completes_of_order (AtMost compare?) id
  exact ⟨total, hcompletes⟩

/-- If one value does not come before another one, the other one may be put in front of it. -/
theorem isPartialOrder_joined (h : IsPartialComparison compare?) (hnot : ¬AtMost compare? b a) :
    IsPartialOrder α (Joined compare? a b) where
  refl x := .inl (.inr (h.compare?_self x))
  trans := by
    rintro x y z (hxy | ⟨hxa, hby⟩) (hyz | ⟨hya, hbz⟩)
    · exact .inl (h.atMost_trans hxy hyz)
    · exact .inr ⟨h.atMost_trans hxy hya, hbz⟩
    · exact .inr ⟨hxa, h.atMost_trans hby hyz⟩
    · exact absurd (h.atMost_trans hby hya) hnot
  antisymm := by
    rintro x y (hxy | ⟨hxa, hby⟩) (hyx | ⟨hya, hbx⟩)
    · exact h.atMost_antisymm hxy hyx
    · exact absurd (h.atMost_trans hbx (h.atMost_trans hxy hya)) hnot
    · exact absurd (h.atMost_trans hby (h.atMost_trans hyx hxa)) hnot
    · exact absurd (h.atMost_trans hby hya) hnot

/-- Values that cannot be compared stand in this order in some total comparison. -/
theorem exists_completes_lt (h : IsPartialComparison compare?) (incomparable : compare? a b = none) :
    ∃ total, Completes total compare? ∧ total a b = .lt := by
  have hnot : ¬AtMost compare? b a := by
    intro hba
    have hsome := hba.isSome
    rw [h.none_iff.2 incomparable] at hsome
    cases hsome
  have hne : a ≠ b := by
    rintro rfl
    exact hnot (.inr (h.compare?_self _))
  have := h.isPartialOrder_joined hnot
  obtain ⟨total, hcompletes, hlt⟩ := h.exists_completes_of_order (Joined compare? a b) .inl
  refine ⟨total, hcompletes, hlt ?_ hne⟩
  exact .inr ⟨.inr (h.compare?_self a), .inr (h.compare?_self b)⟩

end IsPartialComparison

end Horn
