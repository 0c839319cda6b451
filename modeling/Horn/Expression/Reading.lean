import Horn.Expression.Basic
import Horn.Expression.Token

/-!
Reading an expression from tokens.

An operation of a level takes operands of the next level and groups to the left. Above all levels
stand the operations on one operand, then numerals, operands and expressions in parentheses.
-/

set_option autoImplicit false
set_option relaxedAutoImplicit false

namespace Horn.Expression

/-- The operation on two operands that a token stands for. -/
def Binary.ofToken? : Token → Option Binary
  | .symbol '|' => some .or
  | .symbol '^' => some .xor
  | .symbol '&' => some .and
  | .symbol '+' => some .add
  | .symbol '-' => some .sub
  | .symbol '*' => some .mul
  | .symbol '/' => some .div
  | .symbol '%' => some .mod
  | _ => none

/-- The operation on one operand that a token stands for. -/
def Unary.ofToken? : Token → Option Unary
  | .symbol '-' => some .minus
  | .symbol '+' => some .plus
  | .symbol '~' => some .complement
  | _ => none

/-- The level above those of the operations on two operands. -/
def topLevel : Nat := 5

/-- An expression read from the front of a token list, and the tokens behind it. -/
structure Front (tokens : List Token) where
  expression : Expression
  rest : List Token
  shorter : rest.length < tokens.length

/-- An expression made longer at its right end, and the tokens behind it. -/
structure Extended (tokens : List Token) where
  expression : Expression
  rest : List Token
  noLonger : rest.length ≤ tokens.length

mutual

/-- Reads an expression whose operations have at least this level. -/
def readLevel? (level : Nat) (tokens : List Token) : Option (Front tokens) :=
  if level < topLevel then
    match readLevel? (level + 1) tokens with
    | none => none
    | some first =>
      have := first.shorter
      match extend? level first.expression first.rest with
      | none => none
      | some whole =>
        some ⟨whole.expression, whole.rest, Nat.lt_of_le_of_lt whole.noLonger first.shorter⟩
  else readOperand? tokens
termination_by 7 * tokens.length + (1 + (topLevel - level))
decreasing_by all_goals simp only [topLevel] at *; omega

/-- Takes the operations of this level that follow an expression, one after the other. -/
def extend? (level : Nat) (left : Expression) (tokens : List Token) : Option (Extended tokens) :=
  match tokens with
  | [] => some ⟨left, [], Nat.le_refl _⟩
  | token :: rest =>
    match Binary.ofToken? token with
    | none => some ⟨left, token :: rest, Nat.le_refl _⟩
    | some op =>
      if op.level = level then
        match readLevel? (level + 1) rest with
        | none => none
        | some right =>
          have := right.shorter
          match extend? level (.binary op left right.expression) right.rest with
          | none => none
          | some whole =>
            some ⟨whole.expression, whole.rest, by
              have := right.shorter
              have := whole.noLonger
              simp only [List.length_cons]
              omega⟩
      else some ⟨left, token :: rest, Nat.le_refl _⟩
termination_by 7 * tokens.length
decreasing_by all_goals simp only [topLevel, List.length_cons]; omega

/-- Reads a numeral, an operand, or an expression behind a sign or in parentheses. -/
def readOperand? (tokens : List Token) : Option (Front tokens) :=
  match tokens with
  | [] => none
  | .numeral text :: rest => some ⟨.numeral text, rest, by simp⟩
  | .operand digits :: rest => some ⟨.operand digits, rest, by simp⟩
  | .symbol c :: rest =>
    if c = '(' then
      match readLevel? 0 rest with
      | none => none
      | some inner =>
        match h : inner.rest with
        | .symbol ')' :: behind =>
          some ⟨.group inner.expression, behind, by
            have := inner.shorter
            simp only [h, List.length_cons] at this ⊢
            omega⟩
        | _ => none
    else
      match Unary.ofToken? (.symbol c) with
      | none => none
      | some op =>
        match readOperand? rest with
        | none => none
        | some arg =>
          some ⟨.unary op arg.expression, arg.rest, by
            have := arg.shorter
            simp only [List.length_cons]
            omega⟩
termination_by 7 * tokens.length
decreasing_by all_goals simp only [topLevel, List.length_cons]; omega

end

/-- The expression that a list of tokens spells as a whole. -/
def ofTokens? (tokens : List Token) : Option Expression :=
  match readLevel? 0 tokens with
  | some ⟨expression, [], _⟩ => some expression
  | _ => none

/-- The expression that a text spells. -/
def ofText? (text : String) : Option Expression :=
  (Token.ofText? text.toList).bind ofTokens?

/-- The value of the expression that a text spells, the operands being numbered from zero. -/
def evaluate? (text : String) (operands : List Number) : Option Number :=
  (ofText? text).bind (value? operands)

end Horn.Expression
