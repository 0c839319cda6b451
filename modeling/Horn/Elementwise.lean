/-!
Lists compared element by element.

`List.isEqv` compares lists under any relation of their elements; it is reflexive, symmetric and
transitive with the relation. Equality of lists is the case of equality of the elements, and equal
lists have equal hashes.
-/

set_option autoImplicit false
set_option relaxedAutoImplicit false

namespace Horn.Elementwise

variable {α β : Type} {related : α → α → Bool}

theorem refl (h : ∀ a, related a a = true) (as : List α) : as.isEqv as related = true := by
  induction as with
  | nil => rfl
  | cons a as ih => simp [List.isEqv, h, ih]

theorem symm (h : ∀ a b, related a b = true → related b a = true) {as bs : List α}
    (k : as.isEqv bs related = true) : bs.isEqv as related = true := by
  induction as generalizing bs with
  | nil => cases bs <;> simp_all [List.isEqv]
  | cons a as ih =>
    cases bs with
    | nil => simp [List.isEqv] at k
    | cons b bs =>
      simp only [List.isEqv, Bool.and_eq_true] at k ⊢
      exact ⟨h a b k.1, ih k.2⟩

theorem trans (h : ∀ a b c, related a b = true → related b c = true → related a c = true)
    {as bs cs : List α} (k : as.isEqv bs related = true) (l : bs.isEqv cs related = true) :
    as.isEqv cs related = true := by
  induction as generalizing bs cs with
  | nil => cases bs <;> simp_all [List.isEqv]
  | cons a as ih =>
    cases bs with
    | nil => simp [List.isEqv] at k
    | cons b bs =>
      cases cs with
      | nil => simp [List.isEqv] at l
      | cons c cs =>
        simp only [List.isEqv, Bool.and_eq_true] at k l ⊢
        exact ⟨h a b c k.1 l.1, ih k.2 l.2⟩

theorem length_eq {as bs : List α} (k : as.isEqv bs related = true) : as.length = bs.length := by
  induction as generalizing bs with
  | nil => cases bs <;> simp_all [List.isEqv]
  | cons a as ih =>
    cases bs with
    | nil => simp [List.isEqv] at k
    | cons b bs =>
      simp only [List.isEqv, Bool.and_eq_true] at k
      rw [List.length_cons, List.length_cons, ih k.2]

/-- A fold that treats related elements alike comes to the same for related lists. -/
theorem foldl_eq {step : β → α → β}
    (h : ∀ x a b, related a b = true → step x a = step x b) {as bs : List α}
    (k : as.isEqv bs related = true) (start : β) : as.foldl step start = bs.foldl step start := by
  induction as generalizing bs start with
  | nil => cases bs <;> simp_all [List.isEqv]
  | cons a as ih =>
    cases bs with
    | nil => simp [List.isEqv] at k
    | cons b bs =>
      simp only [List.isEqv, Bool.and_eq_true] at k
      rw [List.foldl_cons, List.foldl_cons, h start a b k.1, ih k.2]

theorem beq_eq_isEqv [BEq α] (as bs : List α) : (as == bs) = as.isEqv bs (· == ·) := by
  induction as generalizing bs with
  | nil => cases bs <;> rfl
  | cons a as ih => cases bs <;> simp_all [List.isEqv]

instance equivBEqList [BEq α] [EquivBEq α] : EquivBEq (List α) where
  symm := by
    simp only [beq_eq_isEqv]
    exact symm fun _ _ => BEq.symm
  trans := by
    simp only [beq_eq_isEqv]
    exact trans fun a b c (h : (a == b) = true) (k : (b == c) = true) => BEq.trans h k

instance lawfulHashableList [BEq α] [Hashable α] [LawfulHashable α] :
    LawfulHashable (List α) where
  hash_eq as bs h := by
    rw [beq_eq_isEqv] at h
    show as.foldl (fun r a => mixHash r (hash a)) 7 = bs.foldl (fun r a => mixHash r (hash a)) 7
    exact foldl_eq (fun _ a b (k : (a == b) = true) => by rw [hash_eq k]) h 7

end Horn.Elementwise
