import Horn.Text.Blank
import Horn.Text.Radix

/-!
Runs of characters, and digits in every base.

The digits of a number are digits of its base and spell it, whichever base from 2 to 36 is taken; none of
them is blank.
-/

set_option autoImplicit false
set_option relaxedAutoImplicit false

namespace Horn

section Run

variable {p : Char → Bool} {run rest : List Char}

/-- A run of characters is taken whole if the next one does not belong to it. -/
theorem takeWhile_run (runs : ∀ c ∈ run, p c = true) (ends : ∀ c ∈ rest.head?, p c = false) :
    (run ++ rest).takeWhile p = run := by
  have hrest : rest.takeWhile p = [] := by
    cases rest with
    | nil => rfl
    | cons c rest => exact List.takeWhile_cons_of_neg (Bool.eq_false_iff.1 (ends c rfl))
  rw [List.takeWhile_append_of_pos runs, hrest, List.append_nil]

/-- Behind a run of characters that is dropped stands what does not belong to it. -/
theorem dropWhile_run (runs : ∀ c ∈ run, p c = true) (ends : ∀ c ∈ rest.head?, p c = false) :
    (run ++ rest).dropWhile p = rest := by
  rw [List.dropWhile_append_of_pos runs]
  cases rest with
  | nil => rfl
  | cons c rest => exact List.dropWhile_cons_of_neg (Bool.eq_false_iff.1 (ends c rfl))

end Run

theorem isBlank_eq_false {c : Char} (low : 32 < c.toNat) (high : c.toNat < 133) : isBlank c = false := by
  rw [isBlank, List.any_eq_false]
  intro range hrange hblank
  have hfar : ∀ range ∈ blankRanges, range.2 ≤ 32 ∨ 133 ≤ range.1 := by decide
  have hbounds := Bool.and_eq_true_iff.1 hblank
  have hlow := of_decide_eq_true hbounds.1
  have hhigh := of_decide_eq_true hbounds.2
  have := hfar range hrange
  omega

namespace Radix

variable {base : Nat}

/-- Digits are figures or letters. -/
theorem toNat_of_isDigit {c : Char} (h : isDigit base c = true) : 48 ≤ c.toNat ∧ c.toNat < 123 := by
  rw [isDigit, digitValue?] at h
  grind

theorem isBlank_of_isDigit {c : Char} (h : isDigit base c = true) : isBlank c = false := by
  have hrange := toNat_of_isDigit h
  exact isBlank_eq_false (by omega) (by omega)

/-- The character of a digit has the value of the digit. -/
theorem digitValue?_digitChar (high : base ≤ 36) {digit : Nat} (h : digit < base) :
    digitValue? base (digitChar digit) = some digit := by
  have hcode : ∀ digit : Fin 36, (digitChar digit).toNat =
      if digit.1 < 10 then 48 + digit.1 else 87 + digit.1 := by decide
  have hchar := hcode ⟨digit, Nat.lt_of_lt_of_le h high⟩
  rw [digitValue?, hchar]
  grind

section Digits

variable (low : 2 ≤ base) (high : base ≤ 36)

include low high

private theorem foldl_digitsOnto (fuel value : Nat) (done : List Char) (enough : value < fuel) :
    (digitsOnto base fuel value done).foldl (fun n c => n * base + (digitValue? base c).getD 0) 0 =
      done.foldl (fun n c => n * base + (digitValue? base c).getD 0) value := by
  induction fuel generalizing value done with
  | zero => omega
  | succ fuel ih =>
    have hdigit := digitValue?_digitChar high (Nat.mod_lt value (by omega))
    have hvalue : value / base * base + value % base = value := Nat.div_add_mod' value base
    rw [digitsOnto]
    split
    · rename_i hzero
      rw [hzero, Nat.zero_mul] at hvalue
      rw [List.foldl_cons, hdigit, Nat.zero_mul, Option.getD_some, hvalue]
    · rename_i hrest
      have hless : value / base < value :=
        Nat.div_lt_self (Nat.pos_of_ne_zero fun h => hrest (h ▸ Nat.zero_div base)) low
      rw [ih _ _ (by omega), List.foldl_cons, hdigit, Option.getD_some, hvalue]

/-- The digits of a number spell it. -/
theorem value_digits (value : Nat) : Radix.value base (digits base value) = value :=
  foldl_digitsOnto low high _ _ [] (Nat.lt_succ_self value)

private theorem isDigit_of_mem_digitsOnto (fuel value : Nat) {done : List Char}
    (h : ∀ c ∈ done, isDigit base c = true) :
    ∀ c ∈ digitsOnto base fuel value done, isDigit base c = true := by
  induction fuel generalizing value done with
  | zero => exact h
  | succ fuel ih =>
    have hdigit : isDigit base (digitChar (value % base)) = true := by
      rw [isDigit, digitValue?_digitChar high (Nat.mod_lt value (by omega))]
      rfl
    have hdone : ∀ c ∈ digitChar (value % base) :: done, isDigit base c = true :=
      List.forall_mem_cons.2 ⟨hdigit, h⟩
    rw [digitsOnto]
    split
    · exact hdone
    · exact ih _ hdone

theorem isDigit_of_mem_digits (value : Nat) : ∀ c ∈ digits base value, isDigit base c = true :=
  isDigit_of_mem_digitsOnto low high _ _ fun _ hc => absurd hc List.not_mem_nil

end Digits

private theorem digitsOnto_ne_nil (fuel value : Nat) {done : List Char} (h : done ≠ []) :
    digitsOnto base fuel value done ≠ [] := by
  induction fuel generalizing value done with
  | zero => exact h
  | succ fuel ih =>
    rw [digitsOnto]
    split
    · exact List.cons_ne_nil _ _
    · exact ih _ (List.cons_ne_nil _ _)

theorem digits_ne_nil (base value : Nat) : digits base value ≠ [] := by
  rw [digits, digitsOnto]
  split
  · exact List.cons_ne_nil _ _
  · exact digitsOnto_ne_nil _ _ (List.cons_ne_nil _ _)

/-! ### Runs of decimal digits -/

private theorem digitsOnto_append (fuel value : Nat) (done behind : List Char) :
    digitsOnto base fuel value (done ++ behind) = digitsOnto base fuel value done ++ behind := by
  induction fuel generalizing value done with
  | zero => rfl
  | succ fuel ih =>
    rw [digitsOnto, digitsOnto]
    split
    · rfl
    · exact ih _ (digitChar (value % base) :: done)

private theorem digitsOnto_congr (low : 2 ≤ base) {fuel fuel' value : Nat} (enough : value < fuel)
    (enough' : value < fuel') (done : List Char) :
    digitsOnto base fuel value done = digitsOnto base fuel' value done := by
  induction fuel generalizing fuel' value done with
  | zero => omega
  | succ fuel ih =>
    cases fuel' with
    | zero => omega
    | succ fuel' =>
      rw [digitsOnto, digitsOnto]
      split
      · rfl
      · rename_i hrest
        have hless : value / base < value :=
          Nat.div_lt_self (Nat.pos_of_ne_zero fun h => hrest (h ▸ Nat.zero_div base)) low
        exact ih (by omega) (by omega) _

theorem digits_of_lt {digit : Nat} (h : digit < base) : digits base digit = [digitChar digit] := by
  rw [digits, digitsOnto, if_pos (Nat.div_eq_of_lt h), Nat.mod_eq_of_lt h]

/-- One more digit is written behind the others. -/
theorem digits_mul_add (low : 2 ≤ base) {value digit : Nat} (pos : 0 < value) (h : digit < base) :
    digits base (value * base + digit) = digits base value ++ [digitChar digit] := by
  have hdiv : (value * base + digit) / base = value := by
    rw [Nat.mul_comm, Nat.mul_add_div (by omega), Nat.div_eq_of_lt h, Nat.add_zero]
  have hmod : (value * base + digit) % base = digit := by
    rw [Nat.mul_comm, Nat.mul_add_mod, Nat.mod_eq_of_lt h]
  have hless : value < value * base + digit := by
    have hdouble := Nat.mul_le_mul_left value low
    omega
  calc digits base (value * base + digit)
      = digitsOnto base (value * base + digit) value [digitChar digit] := by
        rw [digits, digitsOnto, hdiv, hmod, if_neg (by omega)]
    _ = digitsOnto base (value + 1) value [digitChar digit] :=
        digitsOnto_congr low hless (Nat.lt_succ_self value) _
    _ = digits base value ++ [digitChar digit] := digitsOnto_append _ _ [] _

theorem digitValue?_zero (pos : 0 < base) : digitValue? base '0' = some 0 := by
  rw [digitValue?]
  exact if_pos pos

/-- Zeros in front of digits count for nothing. -/
theorem value_zeros_append (pos : 0 < base) (zeros : Nat) (text : List Char) :
    value base (List.replicate zeros '0' ++ text) = value base text := by
  induction zeros with
  | zero => rfl
  | succ zeros ih =>
    rw [List.replicate_succ, List.cons_append, value, List.foldl_cons, digitValue?_zero pos,
      Nat.zero_mul, Option.getD_some]
    exact ih

/-- The digits of a decimal base have one character each. -/
theorem exists_digitChar (high : base ≤ 10) {c : Char} (h : isDigit base c = true) :
    ∃ digit < base, digitValue? base c = some digit ∧ digitChar digit = c := by
  obtain ⟨digit, hdigit⟩ := Option.isSome_iff_exists.1 h
  have hrange : 48 ≤ c.toNat ∧ c.toNat - 48 = digit ∧ digit < base := by
    rw [digitValue?] at hdigit
    grind
  refine ⟨digit, hrange.2.2, hdigit, ?_⟩
  rw [digitChar, if_pos (by omega), show 48 + digit = c.toNat by omega]
  exact Char.ofNat_toNat c

private theorem digits_foldl (low : 2 ≤ base) (high : base ≤ 10) {text : List Char}
    (run : ∀ c ∈ text, isDigit base c = true) {value : Nat} (pos : 0 < value) :
    digits base (text.foldl (fun n c => n * base + (digitValue? base c).getD 0) value) =
      digits base value ++ text := by
  induction text generalizing value with
  | nil => rw [List.foldl_nil, List.append_nil]
  | cons c text ih =>
    obtain ⟨hc, htext⟩ := List.forall_mem_cons.1 run
    obtain ⟨digit, hlt, hdigit, hchar⟩ := exists_digitChar high hc
    have hpos : 0 < value * base + digit := Nat.add_pos_left (Nat.mul_pos pos (by omega)) _
    rw [List.foldl_cons, hdigit, Option.getD_some, ih htext hpos, digits_mul_add low pos hlt, hchar,
      List.append_assoc, List.singleton_append]

/-- A run of decimal digits is zeros and the digits of the number that it spells. -/
theorem exists_eq_zeros_append (low : 2 ≤ base) (high : base ≤ 10) {text : List Char}
    (nonempty : text ≠ []) (run : ∀ c ∈ text, isDigit base c = true) :
    ∃ zeros, text = List.replicate zeros '0' ++ digits base (value base text) := by
  induction text with
  | nil => exact absurd rfl nonempty
  | cons c text ih =>
    obtain ⟨hc, htext⟩ := List.forall_mem_cons.1 run
    obtain ⟨digit, hlt, hdigit, hchar⟩ := exists_digitChar high hc
    have hvalue : value base (c :: text) =
        text.foldl (fun n c => n * base + (digitValue? base c).getD 0) digit := by
      rw [value, List.foldl_cons, hdigit, Nat.zero_mul, Nat.zero_add, Option.getD_some]
    by_cases hzero : digit = 0
    · subst hzero
      cases htail : text with
      | nil =>
        rw [htail, List.foldl_nil] at hvalue
        exact ⟨0, by rw [hvalue, digits_of_lt hlt, hchar]; rfl⟩
      | cons d rest =>
        obtain ⟨zeros, hzeros⟩ := ih (htail ▸ List.cons_ne_nil d rest) htext
        have hsame : value base (c :: text) = value base text := hvalue
        rw [← htail, hsame]
        refine ⟨zeros + 1, ?_⟩
        rw [List.replicate_succ, List.cons_append, ← hzeros, ← hchar]
        rfl
    · refine ⟨0, ?_⟩
      rw [hvalue, digits_foldl low high htext (Nat.pos_of_ne_zero hzero), digits_of_lt hlt, hchar]
      rfl

end Radix

end Horn
