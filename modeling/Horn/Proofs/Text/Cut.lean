import Horn.Text.Cut
import Mathlib.Data.List.Infix

/-!
The first occurrence of a pattern.

A cut leaves what stands before the first place where the pattern begins, and what follows it. Main
statements: a text is cut at the first occurrence, and there is no cut exactly if the pattern does not
occur.
-/

set_option autoImplicit false
set_option relaxedAutoImplicit false

namespace Horn.Text

/-- A text taken apart at the first place where a pattern begins. -/
structure IsFirstCut (pattern text before behind : List Char) : Prop where
  whole : text = before ++ pattern ++ behind
  first : ∀ k, k < before.length → ¬pattern <+: text.drop k

variable {pattern text before behind : List Char}

theorem isFirstCut_of_isPrefix (h : pattern <+: text) :
    IsFirstCut pattern text [] (text.drop pattern.length) where
  whole := by
    obtain ⟨rest, rfl⟩ := h
    simp
  first := by
    intro k hk
    exact absurd hk (Nat.not_lt_zero k)

theorem IsFirstCut.cons {c : Char} (h : IsFirstCut pattern text before behind)
    (notHere : ¬pattern <+: c :: text) : IsFirstCut pattern (c :: text) (c :: before) behind where
  whole := by
    rw [h.whole]
    rfl
  first := by
    intro k hk
    cases k with
    | zero => exact notHere
    | succ k => exact h.first k (Nat.lt_of_succ_lt_succ hk)

/-- A pattern that is not empty does not occur before its first occurrence. -/
theorem IsFirstCut.not_infix (h : IsFirstCut pattern text before behind) (nonempty : pattern ≠ []) :
    ¬pattern <:+: before := by
  rintro ⟨front, back, rfl⟩
  have hlength := List.length_pos_iff.2 nonempty
  refine h.first front.length (by simp only [List.length_append]; omega) ?_
  rw [h.whole, List.append_assoc, List.append_assoc, List.append_assoc, List.drop_left]
  exact List.prefix_append _ _

/-- There is only one first place. -/
theorem IsFirstCut.unique {before' behind' : List Char} (h : IsFirstCut pattern text before behind)
    (h' : IsFirstCut pattern text before' behind') : before = before' ∧ behind = behind' := by
  have begins : ∀ {before behind : List Char}, IsFirstCut pattern text before behind →
      pattern <+: text.drop before.length := by
    intro before behind h
    rw [h.whole, List.append_assoc, List.drop_left]
    exact List.prefix_append _ _
  have hlength : before.length = before'.length := by
    have hle : ¬before.length < before'.length := fun hlt => h'.first _ hlt (begins h)
    have hge : ¬before'.length < before.length := fun hlt => h.first _ hlt (begins h')
    omega
  have hwhole : before ++ (pattern ++ behind) = before' ++ (pattern ++ behind') := by
    rw [← List.append_assoc, ← List.append_assoc, ← h.whole, ← h'.whole]
  obtain ⟨rfl, hrest⟩ := List.append_inj hwhole hlength
  exact ⟨rfl, List.append_cancel_left hrest⟩

/-- A character cuts a text at its first place. -/
theorem isFirstCut_of_notMem {c : Char} (h : c ∉ before) :
    IsFirstCut [c] (before ++ c :: behind) before behind where
  whole := by simp
  first := by
    intro k hk hstarts
    rw [List.drop_append_of_le_length (Nat.le_of_lt hk), List.drop_eq_getElem_cons hk] at hstarts
    have hc : c = before[k] := (List.cons_prefix_cons.1 hstarts).1
    exact h (hc ▸ List.getElem_mem hk)

/-- What passes a text by characters finds the first occurrence of a pattern, if there is one. -/
theorem cutOnto?_spec (pattern done text : List Char) :
    (cutOnto? pattern done text = none ∧ ¬pattern <:+: text) ∨
      ∃ before behind, cutOnto? pattern done text = some (done.reverse ++ before, behind) ∧
        IsFirstCut pattern text before behind := by
  induction text generalizing done with
  | nil =>
    cases pattern with
    | nil => exact .inr ⟨[], [], by simp [cutOnto?], isFirstCut_of_isPrefix (List.nil_prefix)⟩
    | cons c pattern => exact .inl ⟨rfl, by simp⟩
  | cons c text ih =>
    unfold cutOnto?
    split
    · rename_i hstarts
      exact .inr ⟨[], _, by simp, isFirstCut_of_isPrefix (List.isPrefixOf_iff_prefix.1 hstarts)⟩
    · rename_i hstarts
      rw [List.isPrefixOf_iff_prefix] at hstarts
      rcases ih (c :: done) with ⟨hnone, hinfix⟩ | ⟨before, behind, hsome, hcut⟩
      · refine .inl ⟨hnone, ?_⟩
        rw [List.infix_cons_iff, not_or]
        exact ⟨hstarts, hinfix⟩
      · refine .inr ⟨c :: before, behind, ?_, hcut.cons hstarts⟩
        rw [hsome, List.reverse_cons, List.append_assoc, List.singleton_append]

theorem not_infix_of_cut? (h : cut? pattern text = none) : ¬pattern <:+: text := by
  rw [cut?_eq] at h
  rcases cutOnto?_spec pattern [] text with ⟨-, hinfix⟩ | ⟨before, behind, hsome, -⟩
  · exact hinfix
  · rw [h] at hsome
    cases hsome

theorem isFirstCut_of_cut? (h : cut? pattern text = some (before, behind)) :
    IsFirstCut pattern text before behind := by
  rw [cut?_eq] at h
  rcases cutOnto?_spec pattern [] text with ⟨hnone, -⟩ | ⟨before', behind', hsome, hcut⟩
  · rw [h] at hnone
    cases hnone
  · rw [h] at hsome
    cases hsome
    exact hcut

end Horn.Text
