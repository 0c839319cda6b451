import Horn.Proofs.Builtin.Evaluation
import Horn.Proofs.Text.Radix

/-!
Integers written in a base and read back.

An integer is written with digits of its base, behind a minus sign if it is negative. Reading passes over
blanks in front and stops at the first character that is no digit. Main statement: every integer but the
least one is read back, in every base. The size of the least integer is no word, and the size is read
before the sign is looked at.
-/

set_option autoImplicit false
set_option relaxedAutoImplicit false

namespace Horn.Builtin

section Reading

variable {base : Nat} {blanks rest : List Char}

/-- The characters of a written integer. -/
private theorem toList_render (base : Nat) (n : Int) :
    (Radix.render base n).toList =
      if n < 0 then '-' :: Radix.digits base n.natAbs else Radix.digits base n.natAbs := by
  rw [Radix.render, String.toList_ofList]

/-- A digit is no sign, so it is left where it stands. -/
private theorem divideSign_of_isDigit {c : Char} {text : List Char} (h : Radix.isDigit base c = true) :
    divideSign (c :: text) = (false, c :: text) := by
  have hrange := Radix.toNat_of_isDigit h
  unfold divideSign
  split
  · rename_i heq
    cases heq
    exact absurd hrange.1 (by decide)
  · rename_i heq
    cases heq
    exact absurd hrange.1 (by decide)
  · rfl

/-- The sign of a written integer and its digits, with what stands around them. -/
private theorem divideSign_render (low : 2 ≤ base) (high : base ≤ 36) (n : Int)
    (blank : ∀ c ∈ blanks, isBlank c = true) :
    divideSign (dropBlanks (blanks ++ (Radix.render base n).toList ++ rest)) =
      (decide (n < 0), Radix.digits base n.natAbs ++ rest) := by
  rw [toList_render, List.append_assoc, dropBlanks]
  by_cases hneg : n < 0
  · rw [if_pos hneg, decide_eq_true hneg, List.cons_append]
    rw [dropWhile_run blank fun c hc => by cases hc; decide]
    rfl
  · rw [if_neg hneg, decide_eq_false hneg]
    obtain ⟨c, behind, hdigits⟩ := List.exists_cons_of_ne_nil (Radix.digits_ne_nil base n.natAbs)
    have hdigit : Radix.isDigit base c = true :=
      Radix.isDigit_of_mem_digits low high _ c (hdigits ▸ List.mem_cons_self)
    rw [hdigits, List.cons_append,
      dropWhile_run blank fun d hd => by cases hd; exact Radix.isBlank_of_isDigit hdigit]
    exact divideSign_of_isDigit hdigit

/-- The size of an integer is a word unless the integer is the least one; with the sign it is the
integer. -/
private theorem signed_natAbs (n : Int64) :
    ((int64? n.toInt.natAbs).map fun size => if decide (n.toInt < 0) then -size else size) =
      if n = Int64.minValue then none else some n := by
  by_cases hleast : n = Int64.minValue
  · subst hleast
    decide +kernel
  · have hlow := n.le_toInt
    have hhigh := n.toInt_lt
    have hne : n.toInt ≠ -2 ^ 63 := fun h =>
      hleast (Int64.toInt_inj.1 (h.trans Int64.toInt_minValue.symm))
    have hneg : (-n).toInt = -n.toInt := by
      rw [Int64.toInt_neg]
      exact Int.bmod_eq_of_le (by omega) (by omega)
    rw [if_neg hleast]
    by_cases hsign : n.toInt < 0
    · have hsize : int64? n.toInt.natAbs = some (-n) := int64?_eq_some_iff.2 (by omega)
      rw [hsize, decide_eq_true hsign, Option.map_some, if_pos rfl, Int64.neg_neg]
    · have hsize : int64? n.toInt.natAbs = some n := int64?_eq_some_iff.2 (by omega)
      rw [hsize, decide_eq_false hsign]
      rfl

/-- A written integer is read back, whatever blanks stand before it and whatever but a digit follows,
unless it is the least one. -/
theorem lenientInteger?_render (low : 2 ≤ base) (high : base ≤ 36) (n : Int64)
    (blank : ∀ c ∈ blanks, isBlank c = true)
    (ends : ∀ c ∈ rest.head?, Radix.isDigit base c = false) :
    lenientInteger? base (String.ofList (blanks ++ (Radix.render base n.toInt).toList ++ rest)) =
      if n = Int64.minValue then none else some n := by
  have hrun : (Radix.digits base n.toInt.natAbs ++ rest).takeWhile (Radix.isDigit base) =
      Radix.digits base n.toInt.natAbs :=
    takeWhile_run (Radix.isDigit_of_mem_digits low high _) ends
  have hsmall : n.toInt.natAbs < wordBound := by
    have hlow := n.le_toInt
    have hhigh := n.toInt_lt
    rw [wordBound]
    omega
  have hvalue : Radix.valueBelow? base wordBound (Radix.digits base n.toInt.natAbs) =
      some n.toInt.natAbs := by
    rw [Radix.valueBelow?_eq (by omega) (by decide), Radix.value_digits low high, if_pos hsmall]
  rw [lenientInteger?, String.toList_ofList, divideSign_render low high n.toInt blank]
  simp only [hrun]
  split
  · rename_i hnil
    exact absurd hnil (Radix.digits_ne_nil _ _)
  · rw [hvalue, Option.bind_some]
    exact signed_natAbs n

end Reading

/-- Whatever the base, an integer is written as a text that is read as the integer again, also behind
blanks and in front of what starts with no digit of the base; in base ten the base can be left out. Only
the least integer is not read back: its text has no value. -/
theorem cast_round_trip (r : Registry) (ambient : Ambient) (n base : Int64) (low : 2 ≤ base.toInt)
    (high : base.toInt ≤ 36) (blanks rest : List Char) (blank : ∀ c ∈ blanks, isBlank c = true)
    (ends : ∀ c ∈ rest.head?, Radix.isDigit base.toInt.toNat c = false) :
    ∃ text : String,
      let written := Literal.text (String.ofList (blanks ++ text.toList ++ rest))
      let value := if n = Int64.minValue then none else some (Literal.integer n)
      r.evaluate "as_string" [.integer n, .integer base] ambient = (some (.text text), ambient) ∧
        r.evaluate "as_integer" [written, .integer base] ambient = (value, ambient) ∧
        (base = 10 →
          r.evaluate "as_string" [.integer n] ambient = (some (.text text), ambient) ∧
            r.evaluate "as_integer" [written] ambient = (value, ambient)) := by
  refine ⟨Radix.render base.toInt.toNat n.toInt, ?_⟩
  intro written value
  have hradix : radix? base = some base.toInt.toNat := if_pos ⟨low, high⟩
  have hread := lenientInteger?_render (by omega) (by omega) n blank ends
  have hvalue : value = (if n = Int64.minValue then none else some n).map .integer :=
    (apply_ite (Option.map Literal.integer) _ none (some n)).symm
  rw [hvalue, ← hread]
  refine ⟨?_, ?_, ?_⟩
  · have hcast : asString [.integer n, .integer base] =
        (radix? base).map fun base => .text (Radix.render base n.toInt) := rfl
    exact Registry.evaluate_text ambient rfl (by rw [hcast, hradix]; rfl)
  · have hcast (text : String) : asInteger [.text text, .integer base] =
        (radix? base).bind fun base => (lenientInteger? base text).map .integer := rfl
    exact Registry.evaluate_integer ambient rfl (by rw [hcast, hradix]; rfl)
  · rintro rfl
    exact ⟨Registry.evaluate_text ambient rfl rfl, Registry.evaluate_integer ambient rfl rfl⟩

/-- Minus 255 in base 16, behind a blank and in front of a letter that is no digit. -/
theorem cast_round_trip_minusFf :
    (2 ≤ (16 : Int64).toInt ∧ (16 : Int64).toInt ≤ 36 ∧ (∀ c ∈ [' '], isBlank c = true) ∧
        ∀ c ∈ ['g', '0'].head?, Radix.isDigit (16 : Int64).toInt.toNat c = false) ∧
      ∃ text : String,
        (Registry.mk 8).evaluate "as_string" [.integer (-255), .integer 16] default =
            (some (.text text), default) ∧
          (Registry.mk 8).evaluate "as_integer"
              [.text (String.ofList ([' '] ++ text.toList ++ ['g', '0'])), .integer 16] default =
            (some (.integer (-255)), default) := by
  have hlow : 2 ≤ (16 : Int64).toInt := by decide
  have hhigh : (16 : Int64).toInt ≤ 36 := by decide
  have hblank : ∀ c ∈ [' '], isBlank c = true := List.forall_mem_singleton.2 (by decide)
  have hends : ∀ c ∈ ['g', '0'].head?, Radix.isDigit (16 : Int64).toInt.toNat c = false := by
    intro c h
    cases h
    decide
  obtain ⟨text, hwritten, hread, -⟩ :=
    cast_round_trip ⟨8⟩ default (-255) 16 hlow hhigh [' '] ['g', '0'] hblank hends
  rw [if_neg (by decide)] at hread
  exact ⟨⟨hlow, hhigh, hblank, hends⟩, text, hwritten, hread⟩

/-- The least integer is not read back, whatever the base. -/
theorem not_forall_cast_round_trip :
    ¬∀ (r : Registry) (ambient : Ambient) (n base : Int64), 2 ≤ base.toInt → base.toInt ≤ 36 →
      ∃ text : String,
        r.evaluate "as_string" [.integer n, .integer base] ambient = (some (.text text), ambient) ∧
          r.evaluate "as_integer" [.text text, .integer base] ambient = (some (.integer n), ambient) := by
  intro h
  obtain ⟨text, hwritten, hread⟩ := h ⟨8⟩ default Int64.minValue 10 (by decide) (by decide)
  have hrender : Radix.render 10 Int64.minValue.toInt = "-9223372036854775808" := by decide +kernel
  have hleast : (Registry.mk 8).evaluate "as_string" [.integer Int64.minValue, .integer 10] default =
      (some (.text "-9223372036854775808"), default) :=
    Registry.evaluate_text default rfl (hrender ▸ rfl)
  rw [hleast] at hwritten
  cases hwritten
  have hnone := congrArg (·.1.isSome) hread
  exact absurd hnone (by decide +kernel)

end Horn.Builtin
