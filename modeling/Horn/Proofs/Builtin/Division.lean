import Horn.Proofs.Builtin.Evaluation
import Mathlib.Data.Rat.Floor
import Mathlib.Tactic.SplitIfs

/-!
Division of integers rounds down.

Words are divided with rounding toward zero; where the signs ask for it the quotient is then lowered and
the remainder moved. Main statement: the quotient is the floor of the exact one, the remainder is what
that leaves, and no step on the way to them wraps round. The one pair of words without a quotient, the
least word and minus one, has no remainder either.
-/

set_option autoImplicit false
set_option relaxedAutoImplicit false

namespace Horn

/-! ### Rounding down and rounding toward zero -/

private theorem floor_div (a b : Int) : ⌊(a : ℚ) / b⌋ = a.fdiv b := by
  have hpositive (a : Int) (n : Nat) : ⌊(a : ℚ) / (n : Int)⌋ = a.fdiv n := by
    rw [Int.fdiv_eq_ediv_of_nonneg a (Int.natCast_nonneg n), Int.cast_natCast]
    exact Rat.floor_intCast_div_natCast a n
  obtain ⟨n, rfl | rfl⟩ := b.eq_nat_or_neg
  · exact hpositive a n
  · have hneg : (a : ℚ) / (-(n : Int) : Int) = (-a : Int) / (n : Int) := by
      push_cast
      rw [div_neg, neg_div]
    rw [hneg, hpositive, ← Int.neg_fdiv_neg, Int.neg_neg]

private theorem sub_mul_floor (a b : Int) : a - b * ⌊(a : ℚ) / b⌋ = a.fmod b := by
  rw [floor_div, Int.fmod_def]

/-- What is left when rounding toward zero has the sign of the dividend. -/
private theorem tmod_neg_iff {a b : Int} (inexact : a.tmod b ≠ 0) : a.tmod b < 0 ↔ a < 0 := by
  have hsign : (a.tmod b).sign = a.sign := by
    rw [Int.sign_tmod, if_neg (mt Int.tmod_eq_zero_of_dvd inexact)]
  rw [← Int.sign_eq_neg_one_iff_neg, hsign, Int.sign_eq_neg_one_iff_neg]

/-- The two roundings differ where the exact quotient is negative and not whole. -/
private theorem fdiv_eq (a b : Int) (nonzero : b ≠ 0) :
    a.fdiv b = if a.tmod b ≠ 0 ∧ ¬(a < 0 ↔ b < 0) then a.tdiv b - 1 else a.tdiv b := by
  rw [Int.fdiv_eq_tdiv]
  by_cases hwhole : b ∣ a
  · have hexact : a.tmod b = 0 := Int.tmod_eq_zero_of_dvd hwhole
    rw [if_pos hwhole, if_neg fun h => h.1 hexact, sub_zero]
  · have hinexact : a.tmod b ≠ 0 := mt Int.dvd_of_tmod_eq_zero hwhole
    rw [if_neg hwhole]
    rcases lt_or_gt_of_ne nonzero with hb | hb
    · have : b.sign = -1 := Int.sign_eq_neg_one_of_neg hb
      split_ifs <;> omega
    · have : b.sign = 1 := Int.sign_eq_one_of_pos hb
      split_ifs <;> omega

private theorem fmod_eq (a b : Int) (nonzero : b ≠ 0) :
    a.fmod b = if a.tmod b ≠ 0 ∧ ¬(a.tmod b < 0 ↔ b < 0) then a.tmod b + b else a.tmod b := by
  have hmoved : (a.tmod b ≠ 0 ∧ ¬(a.tmod b < 0 ↔ b < 0)) ↔ (a.tmod b ≠ 0 ∧ ¬(a < 0 ↔ b < 0)) :=
    and_congr_right fun inexact => not_congr (iff_congr (tmod_neg_iff inexact) Iff.rfl)
  rw [Int.fmod_def, fdiv_eq a b nonzero, if_congr hmoved rfl rfl, Int.tmod_def]
  split
  · rw [Int.mul_sub, Int.mul_one]
    omega
  · rfl

/-- The remainder lies between zero and the divisor. -/
private theorem fmod_bounds (a : Int) {b : Int} (nonzero : b ≠ 0) :
    0 < b ∧ 0 ≤ a.fmod b ∧ a.fmod b < b ∨ b < 0 ∧ b < a.fmod b ∧ a.fmod b ≤ 0 := by
  rcases lt_or_gt_of_ne nonzero with hb | hb
  · have hlow := Int.fmod_nonneg_of_pos (-a) (Int.neg_pos_of_neg hb)
    have hhigh := Int.fmod_lt_of_pos (-a) (Int.neg_pos_of_neg hb)
    rw [Int.neg_fmod_neg] at hlow hhigh
    exact .inr ⟨hb, by omega, by omega⟩
  · exact .inl ⟨hb, Int.fmod_nonneg_of_pos a hb, Int.fmod_lt_of_pos a hb⟩

private theorem sign_fmod (a : Int) {b : Int} (nonzero : b ≠ 0) :
    a.fmod b = 0 ∨ (a.fmod b).sign = b.sign := by
  rcases fmod_bounds a nonzero with ⟨hb, hm, -⟩ | ⟨hb, -, hm⟩
  · rcases hm.eq_or_lt with hm | hm
    · exact .inl hm.symm
    · exact .inr (by rw [Int.sign_eq_one_of_pos hm, Int.sign_eq_one_of_pos hb])
  · rcases hm.eq_or_lt with hm | hm
    · exact .inl hm
    · exact .inr (by rw [Int.sign_eq_neg_one_of_neg hm, Int.sign_eq_neg_one_of_neg hb])

/-- A divisor with something left over is not one or minus one, so the quotient is at most half of what
is divided. -/
private theorem natAbs_tdiv_le {a b : Int} (nonzero : b ≠ 0) (inexact : a.tmod b ≠ 0) :
    (a.tdiv b).natAbs ≤ a.natAbs / 2 := by
  have hsize : b.natAbs ≠ 1 := by
    intro hone
    refine inexact (Int.tmod_eq_zero_of_dvd (Int.natAbs_dvd_natAbs.1 ?_))
    rw [hone]
    exact Nat.one_dvd _
  rw [Int.natAbs_tdiv]
  exact Nat.div_le_div_left (by omega) (by decide)

namespace Number

variable {a b : Int64}

/-- No step of a division of words wraps round: the quotient and the remainder are those of the integers,
and so is what the corrections make of them. -/
structure DividesExactly (a b : Int64) : Prop where
  quotient : ∀ q, truncDiv? a b = some q → q.toInt = a.toInt.tdiv b.toInt
  remainder : ∀ r, truncMod? a b = some r → r.toInt = a.toInt.tmod b.toInt
  lowered : ∀ q, truncDiv? a b = some q → a % b ≠ 0 ∧ ¬(a < 0 ↔ b < 0) → (q - 1).toInt = q.toInt - 1
  moved : ∀ r, truncMod? a b = some r → r ≠ 0 ∧ ¬(r < 0 ↔ b < 0) → (r + b).toInt = r.toInt + b.toInt

private theorem neg_iff : a < 0 ↔ a.toInt < 0 :=
  Int64.lt_iff_toInt_lt

private theorem toInt_div (fits : ¬(a = Int64.minValue ∧ b = -1)) :
    (a / b).toInt = a.toInt.tdiv b.toInt := by
  by_cases ha : a = Int64.minValue
  · exact Int64.toInt_div_of_ne_right a b fun hb => fits ⟨ha, hb⟩
  · exact Int64.toInt_div_of_ne_left a b ha

private theorem word_ne_zero_iff (w : Int64) : w ≠ 0 ↔ w.toInt ≠ 0 :=
  not_congr Int64.toInt_inj.symm

private theorem lowered_iff : (a % b ≠ 0 ∧ ¬(a < 0 ↔ b < 0)) ↔
    (a.toInt.tmod b.toInt ≠ 0 ∧ ¬(a.toInt < 0 ↔ b.toInt < 0)) := by
  rw [neg_iff, neg_iff, word_ne_zero_iff, Int64.toInt_mod]

private theorem moved_iff : (a % b ≠ 0 ∧ ¬(a % b < 0 ↔ b < 0)) ↔
    (a.toInt.tmod b.toInt ≠ 0 ∧ ¬(a.toInt.tmod b.toInt < 0 ↔ b.toInt < 0)) := by
  rw [neg_iff, neg_iff, word_ne_zero_iff, Int64.toInt_mod]

private theorem toInt_sub_one {q : Int64} (low : -2 ^ 63 < q.toInt) : (q - 1).toInt = q.toInt - 1 := by
  have hhigh := q.toInt_lt
  rw [Int64.toInt_sub, Int64.toInt_one]
  exact Int.bmod_eq_of_le (by omega) (by omega)

private theorem toInt_add_of_signs {r b : Int64} (signs : ¬(r < 0 ↔ b < 0)) :
    (r + b).toInt = r.toInt + b.toInt := by
  rw [neg_iff, neg_iff] at signs
  have hr := r.toInt_lt
  have hr' := r.le_toInt
  have hb := b.toInt_lt
  have hb' := b.le_toInt
  rw [Int64.toInt_add]
  exact Int.bmod_eq_of_le (by omega) (by omega)

private theorem truncDiv?_eq_some {q : Int64} (h : truncDiv? a b = some q) :
    b ≠ 0 ∧ ¬(a = Int64.minValue ∧ b = -1) ∧ q = a / b := by
  rw [truncDiv?] at h
  split at h
  · nomatch h
  · rename_i hrefused
    rw [not_or] at hrefused
    exact ⟨hrefused.1, hrefused.2, (Option.some.inj h).symm⟩

private theorem truncMod?_eq_some {r : Int64} (h : truncMod? a b = some r) : r = a % b := by
  rw [truncMod?] at h
  split at h
  · nomatch h
  · exact (Option.some.inj h).symm

theorem dividesExactly (a b : Int64) : DividesExactly a b where
  quotient q h := by
    obtain ⟨-, hfits, rfl⟩ := truncDiv?_eq_some h
    exact toInt_div hfits
  remainder r h := by
    rw [truncMod?_eq_some h, Int64.toInt_mod]
  lowered q h hlowered := by
    obtain ⟨hnonzero, hfits, rfl⟩ := truncDiv?_eq_some h
    have hhalf := natAbs_tdiv_le ((word_ne_zero_iff b).1 hnonzero) (lowered_iff.1 hlowered).1
    have hlow := a.le_toInt
    have hhigh := a.toInt_lt
    refine toInt_sub_one ?_
    rw [toInt_div hfits]
    omega
  moved r _ hmoved := toInt_add_of_signs hmoved.2

/-- Words are divided as the integers that they are, with rounding down. -/
theorem floorDiv?_eq (nonzero : b ≠ 0) : floorDiv? a b = int64? (a.toInt.fdiv b.toInt) := by
  have hdivisor := (word_ne_zero_iff b).1 nonzero
  rw [floorDiv?]
  by_cases hrefused : a = Int64.minValue ∧ b = -1
  · obtain ⟨rfl, rfl⟩ := hrefused
    decide +kernel
  · have hquotient : truncDiv? a b = some (a / b) := if_neg (not_or.2 ⟨nonzero, hrefused⟩)
    have hexact := dividesExactly a b
    rw [hquotient, Option.map_some, eq_comm, int64?_eq_some_iff, fdiv_eq _ _ hdivisor]
    by_cases hlowered : a % b ≠ 0 ∧ ¬(a < 0 ↔ b < 0)
    · rw [if_pos hlowered, if_pos (lowered_iff.1 hlowered), hexact.lowered _ hquotient hlowered,
        hexact.quotient _ hquotient]
    · rw [if_neg hlowered, if_neg (mt lowered_iff.2 hlowered), hexact.quotient _ hquotient]

/-- Words leave what the integers that they are leave, except where the quotient is no word. -/
theorem floorMod?_eq (nonzero : b ≠ 0) :
    floorMod? a b =
      if a = Int64.minValue ∧ b = -1 then none else int64? (a.toInt.fmod b.toInt) := by
  have hdivisor := (word_ne_zero_iff b).1 nonzero
  rw [floorMod?]
  by_cases hrefused : a = Int64.minValue ∧ b = -1
  · rw [if_pos hrefused, truncMod?, if_pos (.inr hrefused), Option.map_none]
  · have hremainder : truncMod? a b = some (a % b) := if_neg (not_or.2 ⟨nonzero, hrefused⟩)
    have hexact := dividesExactly a b
    rw [if_neg hrefused, hremainder, Option.map_some, eq_comm, int64?_eq_some_iff, fmod_eq _ _ hdivisor]
    by_cases hmoved : a % b ≠ 0 ∧ ¬(a % b < 0 ↔ b < 0)
    · rw [if_pos hmoved, if_pos (moved_iff.1 hmoved), hexact.moved _ hremainder hmoved,
        hexact.remainder _ hremainder]
    · rw [if_neg hmoved, if_neg (mt moved_iff.2 hmoved), hexact.remainder _ hremainder]

theorem div_int (nonzero : b ≠ 0) :
    Number.div (.int a) (.int b) = (int64? ⌊(a.toInt : ℚ) / b.toInt⌋).map .int := by
  have hzero : isZero (.int b) = false := beq_false_of_ne nonzero
  rw [floor_div, ← floorDiv?_eq nonzero, Number.div, hzero]
  rfl

theorem modulo_int (nonzero : b ≠ 0) :
    Number.modulo (.int a) (.int b) =
      if a = Int64.minValue ∧ b = -1 then none
      else (int64? (a.toInt - b.toInt * ⌊(a.toInt : ℚ) / b.toInt⌋)).map .int := by
  have hzero : isZero (.int b) = false := beq_false_of_ne nonzero
  have hmap := apply_ite (Option.map Number.int) (a = Int64.minValue ∧ b = -1) none
    (int64? (a.toInt.fmod b.toInt))
  rw [sub_mul_floor, Number.modulo, hzero, ← Option.map_none, ← hmap, ← floorMod?_eq nonzero]
  rfl

end Number

namespace Builtin

/-- The integer that arithmetic on two integers comes to is the value of the built-in. -/
private theorem evaluate_onTwo {r : Registry} {name : String} {op : Number → Number → Option Number}
    {a b : Int64} {value : Option Int64} (ambient : Ambient)
    (found : r.action? name 2 = some (.compute (onTwo op)))
    (computed : op (.int a) (.int b) = value.map .int) :
    r.evaluate name [.integer a, .integer b] ambient = (value.map .integer, ambient) := by
  have hvalue : onTwo op [.integer a, .integer b] = (op (.int a) (.int b)).map Number.toLiteral := rfl
  refine Registry.evaluate_integer ambient found ?_
  rw [hvalue, computed, Option.map_map]
  rfl

private theorem evaluate_eval {r : Registry} {text : String} {a b : Int64} {value : Option Int64}
    (ambient : Ambient) (room : 4 ≤ r.bound)
    (computed : Expression.evaluate? text [.int a, .int b] = value.map .int) :
    r.evaluate "eval" [.integer a, .integer b, .text text] ambient = (value.map .integer, ambient) := by
  have hhigh : 4 ≤ r.bound.max 3 := Nat.le_trans room (Nat.le_max_left _ _)
  have harity : r.hasArity ⟨"eval", .variadic 3, .compute eval⟩ 4 = true :=
    Bool.and_eq_true_iff.2 ⟨rfl, decide_eq_true hhigh⟩
  have hvalue : eval [.integer a, .integer b, .text text] =
      (Expression.evaluate? text [.int a, .int b]).map Number.toLiteral := rfl
  refine Registry.evaluate_integer ambient (Registry.action?_of_find? rfl harity) ?_
  rw [hvalue, computed, Option.map_map]
  rfl

/-- An integer is divided with rounding down, and the remainder is what that leaves: a word that is zero
or has the sign of the divisor. Slashes and percent signs in expressions do the same, and no step on the
way wraps round. Only the least word divided by minus one has no remainder. -/
theorem division_floors (r : Registry) (ambient : Ambient) (a b : Int64) (nonzero : b ≠ 0) :
    let q : Int := ⌊(a.toInt : ℚ) / b.toInt⌋
    let m : Int := a.toInt - b.toInt * q
    let quotient := int64? q
    let remainder := if a = Int64.minValue ∧ b = -1 then none else int64? m
    r.evaluate "div" [.integer a, .integer b] ambient = (quotient.map .integer, ambient) ∧
      r.evaluate "mod" [.integer a, .integer b] ambient = (remainder.map .integer, ambient) ∧
      (∃ word : Int64, word.toInt = m) ∧ (m = 0 ∨ m.sign = b.toInt.sign) ∧
      (4 ≤ r.bound →
        r.evaluate "eval" [.integer a, .integer b, .text "$0 / $1"] ambient =
            (quotient.map .integer, ambient) ∧
          r.evaluate "eval" [.integer a, .integer b, .text "$0 % $1"] ambient =
            (remainder.map .integer, ambient)) ∧
      (∀ operands left right, Expression.value? operands left = some (.int a) →
        Expression.value? operands right = some (.int b) →
          Expression.value? operands (.binary .div left right) = quotient.map .int ∧
            Expression.value? operands (.binary .mod left right) = remainder.map .int) ∧
      Number.DividesExactly a b := by
  intro q m quotient remainder
  have hdiv : Number.div (.int a) (.int b) = quotient.map .int := Number.div_int nonzero
  have hmod : Number.modulo (.int a) (.int b) = remainder.map .int := by
    rw [Number.modulo_int nonzero]
    exact (apply_ite (Option.map Number.int) _ none (int64? m)).symm
  have hdivisor := (Number.word_ne_zero_iff b).1 nonzero
  have hm : a.toInt.fmod b.toInt = m := (sub_mul_floor _ _).symm
  refine ⟨evaluate_onTwo ambient rfl hdiv, evaluate_onTwo ambient rfl hmod, ?_, ?_, ?_, ?_,
    Number.dividesExactly a b⟩
  · have hbounds := fmod_bounds a.toInt hdivisor
    have hlow := b.le_toInt
    have hhigh := b.toInt_lt
    exact ⟨Int64.ofInt m, Int64.toInt_ofInt_of_le (by omega) (by omega)⟩
  · rw [← hm]
    exact sign_fmod a.toInt hdivisor
  · intro room
    have hslash : Expression.ofText? "$0 / $1" =
        some (.binary .div (.operand ['0']) (.operand ['1'])) := by decide +kernel
    have hpercent : Expression.ofText? "$0 % $1" =
        some (.binary .mod (.operand ['0']) (.operand ['1'])) := by decide +kernel
    constructor
    · exact evaluate_eval ambient room (by rw [Expression.evaluate?, hslash]; exact hdiv)
    · exact evaluate_eval ambient room (by rw [Expression.evaluate?, hpercent]; exact hmod)
  · intro operands left right hleft hright
    rw [Expression.value?, Expression.value?, hleft, hright]
    exact ⟨hdiv, hmod⟩

/-- Seven by minus two: the exact quotient lies between minus four and minus three. -/
theorem division_floors_sevenByMinusTwo :
    (-2 : Int64) ≠ 0 ∧
      (Registry.mk 8).evaluate "div" [.integer 7, .integer (-2)] default =
        (some (.integer (-4)), default) ∧
      (Registry.mk 8).evaluate "mod" [.integer 7, .integer (-2)] default =
        (some (.integer (-1)), default) := by
  have hfloor : ⌊((7 : Int64).toInt : ℚ) / (-2 : Int64).toInt⌋ = -4 := by
    rw [floor_div]
    decide
  obtain ⟨hdiv, hmod, -⟩ := division_floors ⟨8⟩ default 7 (-2) (by decide)
  rw [hfloor] at hdiv hmod
  exact ⟨by decide, hdiv, hmod⟩

/-- The remainder of the least word by minus one is zero, which is a word, but it has no value. -/
theorem not_forall_remainder :
    ¬∀ (r : Registry) (ambient : Ambient) (a b : Int64), b ≠ 0 →
      r.evaluate "mod" [.integer a, .integer b] ambient =
        ((int64? (a.toInt - b.toInt * ⌊(a.toInt : ℚ) / b.toInt⌋)).map .integer, ambient) := by
  intro h
  have hleast := congrArg (·.1.isSome) (h ⟨8⟩ default Int64.minValue (-1) (by decide))
  rw [sub_mul_floor] at hleast
  exact absurd hleast (by decide +kernel)

end Builtin

end Horn
