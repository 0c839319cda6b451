/-!
Integers written in a base between 2 and 36.

`Radix.render` writes an integer with digits and small letters; `Radix.digitValue?` and
`Radix.value` read digits back, where letters may be small or capital.
-/

set_option autoImplicit false
set_option relaxedAutoImplicit false

namespace Horn.Radix

/-- The character of a digit below 36. -/
def digitChar (digit : Nat) : Char :=
  if digit < 10 then Char.ofNat (48 + digit) else Char.ofNat (87 + digit)

/-- The value of a character as a digit, if it is one in this base. -/
def digitValue? (base : Nat) (c : Char) : Option Nat :=
  let code := c.toNat
  let digit :=
    if 48 ≤ code ∧ code < 58 then code - 48
    else if 97 ≤ code ∧ code < 123 then code - 87
    else if 65 ≤ code ∧ code < 91 then code - 55
    else base
  if digit < base then some digit else none

def isDigit (base : Nat) (c : Char) : Bool :=
  (digitValue? base c).isSome

/-- Puts the digits of `value` in front of `done`, at most `fuel` of them. -/
def digitsOnto (base : Nat) : (fuel value : Nat) → (done : List Char) → List Char
  | 0, _, done => done
  | fuel + 1, value, done =>
    let done := digitChar (value % base) :: done
    if value / base = 0 then done else digitsOnto base fuel (value / base) done

/-- The digits of a number, most significant first; zero has one digit. -/
def digits (base value : Nat) : List Char :=
  digitsOnto base (value + 1) value []

/-- The number that a list of digits stands for; a character that is no digit counts as zero. -/
def value (base : Nat) (digits : List Char) : Nat :=
  digits.foldl (fun n c => n * base + (digitValue? base c).getD 0) 0

/-- The number that a list of digits stands for if it is below a bound; digits that follow once the
bound is reached are not read. -/
def valueBelow? (base bound : Nat) (digits : List Char) : Option Nat :=
  digits.foldlM
    (fun n c =>
      let next := n * base + (digitValue? base c).getD 0
      if next < bound then some next else none)
    0

/-- An integer in a base: a minus sign if it is negative, then the digits of its size. -/
def render (base : Nat) (value : Int) : String :=
  let body := digits base value.natAbs
  String.ofList (if value < 0 then '-' :: body else body)

theorem le_foldl {base : Nat} (positive : 0 < base) (digits : List Char) (n : Nat) :
    n ≤ digits.foldl (fun n c => n * base + (digitValue? base c).getD 0) n := by
  induction digits generalizing n with
  | nil => exact Nat.le_refl n
  | cons c rest ih =>
    exact Nat.le_trans (Nat.le_trans (Nat.le_mul_of_pos_right n positive) (Nat.le_add_right _ _))
      (ih _)

theorem valueBelow?_eq {base bound : Nat} (positive : 0 < base) (room : 0 < bound)
    (digits : List Char) :
    valueBelow? base bound digits =
      if value base digits < bound then some (value base digits) else none := by
  suffices h : ∀ n < bound, digits.foldlM
      (fun n c =>
        let next := n * base + (digitValue? base c).getD 0
        if next < bound then some next else none) n =
      if digits.foldl (fun n c => n * base + (digitValue? base c).getD 0) n < bound then
        some (digits.foldl (fun n c => n * base + (digitValue? base c).getD 0) n)
      else none from h 0 room
  induction digits with
  | nil => simp_all
  | cons c rest ih =>
    intro n _
    rw [List.foldlM_cons, List.foldl_cons]
    by_cases hn : n * base + (digitValue? base c).getD 0 < bound
    · simpa [hn] using ih _ hn
    · have := le_foldl positive rest (n * base + (digitValue? base c).getD 0)
      rw [if_neg (Nat.not_lt.2 (Nat.le_trans (Nat.not_lt.1 hn) this))]
      simp [hn]

end Horn.Radix
