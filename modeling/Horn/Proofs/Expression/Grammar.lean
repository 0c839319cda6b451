import Horn.Expression.Reading

/-!
The grammar of expressions and what they denote.

A text is cut into tokens, with blanks before each of them and at the end, and the tokens are derived
from the loosest kind of phrase:

    or      := xor ('|' xor)*
    xor     := and ('^' and)*
    and     := sum ('&' sum)*
    sum     := term (('+' | '-') term)*
    term    := unary (('*' | '/' | '%') unary)*
    unary   := ('-' | '+' | '~') unary | primary
    primary := '(' or ')' | '$' digits | a run of digits and points

A row of parts is derived from the left, one part after the other, so that it groups to the left.
-/

set_option autoImplicit false
set_option relaxedAutoImplicit false

namespace Horn.Expression

/-! ### Tokens in a text -/

/-- A run of characters of one kind, one of them at least. -/
structure IsRun (kind : Char → Bool) (run : List Char) : Prop where
  ne_nil : run ≠ []
  all : ∀ c ∈ run, kind c = true

/-- The characters that a token is written with. -/
inductive Token.IsWritten : Token → List Char → Prop
  | symbol (c : Char) : IsWritten (.symbol c) [c]
  | operand {digits : List Char} (run : IsRun Char.isDigit digits) :
      IsWritten (.operand digits) ('$' :: digits)
  | numeral {text : List Char} (run : IsRun (fun c => c.isDigit || c == '.') text) :
      IsWritten (.numeral text) text

/-- A text consists of these tokens; blanks may stand before each of them and at the end. -/
inductive Spaced : List Token → List Char → Prop
  | nil {blanks : List Char} (blank : ∀ c ∈ blanks, isBlank c = true) : Spaced [] blanks
  | cons {blanks chars rest : List Char} {token : Token} {tokens : List Token}
      (blank : ∀ c ∈ blanks, isBlank c = true) (written : token.IsWritten chars)
      (behind : Spaced tokens rest) : Spaced (token :: tokens) (blanks ++ (chars ++ rest))

/-! ### Phrases -/

/-- The kinds of phrases, the loosest first. -/
inductive Phrase where
  | or
  | xor
  | and
  | sum
  | term
  | unary
  | primary
  deriving DecidableEq, Repr

/-- The parts that a phrase may be a row of, and the operators that may stand between them. -/
def Phrase.row? : Phrase → Option (Phrase × List (Char × Binary))
  | .or => some (.xor, [('|', .or)])
  | .xor => some (.and, [('^', .xor)])
  | .and => some (.sum, [('&', .and)])
  | .sum => some (.term, [('+', .add), ('-', .sub)])
  | .term => some (.unary, [('*', .mul), ('/', .div), ('%', .mod)])
  | .unary | .primary => none

/-- The operators that stand before their operand. -/
def signs : List (Char × Unary) :=
  [('-', .minus), ('+', .plus), ('~', .complement)]

/-- Tokens are derived from a kind of phrase, with an expression as the parse tree. -/
inductive Derives : Phrase → Expression → List Token → Prop
  | part {phrase part : Phrase} {operators : List (Char × Binary)} {tree : Expression}
      {tokens : List Token} (row : phrase.row? = some (part, operators))
      (only : Derives part tree tokens) : Derives phrase tree tokens
  | join {phrase part : Phrase} {operators : List (Char × Binary)} {left right : Expression}
      {front behind : List Token} {c : Char} {op : Binary}
      (row : phrase.row? = some (part, operators)) (first : Derives phrase left front)
      (operator : (c, op) ∈ operators) (last : Derives part right behind) :
      Derives phrase (.binary op left right) (front ++ .symbol c :: behind)
  | signed {c : Char} {op : Unary} {arg : Expression} {tokens : List Token} (sign : (c, op) ∈ signs)
      (behind : Derives .unary arg tokens) : Derives .unary (.unary op arg) (.symbol c :: tokens)
  | primary {tree : Expression} {tokens : List Token} (only : Derives .primary tree tokens) :
      Derives .unary tree tokens
  | group {inner : Expression} {tokens : List Token} (inside : Derives .or inner tokens) :
      Derives .primary (.group inner) (.symbol '(' :: (tokens ++ [.symbol ')']))
  | operand (digits : List Char) : Derives .primary (.operand digits) [.operand digits]
  | numeral (text : List Char) : Derives .primary (.numeral text) [.numeral text]

/-- An expression is a parse tree of a text. -/
def Parses (tree : Expression) (text : String) : Prop :=
  ∃ tokens, Derives .or tree tokens ∧ Spaced tokens text.toList

/-! ### Values -/

/-- The value of a parse tree, the operands being numbered from zero. Numbers of operands are words of 64
bits without sign, which every list of operands is shorter than. -/
inductive Denotes (operands : List Number) : Expression → Number → Prop
  | integer {text : List Char} {value : Int64} (run : IsRun Char.isDigit text)
      (spelled : value.toInt = Radix.value 10 text) : Denotes operands (.numeral text) (.int value)
  | double {text : List Char} {value : Float} (point : '.' ∈ text)
      (spelled : Decimal.read? text = some value) : Denotes operands (.numeral text) (.float value)
  | operand {digits : List Char} {value : Number} (run : IsRun Char.isDigit digits)
      (word : Radix.value 10 digits < wordBound) (found : operands[Radix.value 10 digits]? = some value) :
      Denotes operands (.operand digits) value
  | group {inner : Expression} {value : Number} (inside : Denotes operands inner value) :
      Denotes operands (.group inner) value
  | unary {op : Unary} {arg : Expression} {x value : Number} (behind : Denotes operands arg x)
      (applied : op.apply x = some value) : Denotes operands (.unary op arg) value
  | binary {op : Binary} {left right : Expression} {x y value : Number}
      (first : Denotes operands left x) (last : Denotes operands right y)
      (applied : op.apply x y = some value) : Denotes operands (.binary op left right) value

end Horn.Expression
