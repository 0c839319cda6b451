import Horn.Literal.Equality
import Horn.Literal.Text

/-!
Conditions on the value of a variable: a comparison with an operand, or a test of the value's kind.

`Condition.holds` compares only within one family, so a value of another family fails every
comparison, inequality included.
-/

set_option autoImplicit false
set_option relaxedAutoImplicit false

namespace Horn

/-- What a condition tests. -/
inductive Operator where
  | lt
  | le
  | gt
  | ge
  | ne
  | type
  deriving DecidableEq, Repr, Hashable, Inhabited

/-- The symbol an operator is written with. -/
def Operator.symbol : Operator → String
  | .lt => "<"
  | .le => "<="
  | .gt => ">"
  | .ge => ">="
  | .ne => "<>"
  | .type => ":"

/-- A test of a value against an operand; for a test of the kind the operand is a text that names
the kind. -/
structure Condition where
  operator : Operator
  operand : Literal
  deriving Inhabited

namespace Condition

/-- Same operator and equal operands. -/
def same (c d : Condition) : Bool :=
  c.operator == d.operator && c.operand == d.operand

instance : BEq Condition := ⟨same⟩

/-- A hash that agrees with equality. -/
def hashCode (c : Condition) : UInt64 :=
  mixHash (hash c.operator) (hash c.operand)

instance : Hashable Condition := ⟨hashCode⟩

theorem beq_iff {c d : Condition} :
    (c == d) = true ↔ c.operator = d.operator ∧ (c.operand == d.operand) = true := by
  rw [show (c == d) = c.same d from rfl, same]
  simp

instance : EquivBEq Condition where
  rfl := beq_iff.2 ⟨rfl, BEq.rfl⟩
  symm h := beq_iff.2 ⟨(beq_iff.1 h).1.symm, BEq.symm (beq_iff.1 h).2⟩
  trans h k :=
    beq_iff.2 ⟨(beq_iff.1 h).1.trans (beq_iff.1 k).1, BEq.trans (beq_iff.1 h).2 (beq_iff.1 k).2⟩

instance : LawfulHashable Condition where
  hash_eq c d h := by
    obtain ⟨operators, operands⟩ := beq_iff.1 h
    rw [show hash c = c.hashCode from rfl, show hash d = d.hashCode from rfl, hashCode, hashCode,
      operators, hash_eq operands]

/-- The written form: the operator and the operand, but a named kind stands without quotes. -/
def toText (c : Condition) : String :=
  match c.operator, c.operand with
  | .type, .text name => ": " ++ name
  | operator, operand => operator.symbol ++ " " ++ operand.toText

/-- Whether a value satisfies a condition. -/
def holds (c : Condition) (value : Literal) : Bool :=
  let order := value.compare? c.operand
  match c.operator with
  | .lt => order == some .lt
  | .le => order == some .lt || order == some .eq
  | .gt => order == some .gt
  | .ge => order == some .gt || order == some .eq
  | .ne => value.sameFamily c.operand && order != some .eq
  | .type =>
    match c.operand with
    | .text name => name == value.typeName
    | _ => false

end Condition

end Horn
