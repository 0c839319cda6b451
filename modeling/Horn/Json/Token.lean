import Horn.Json.Numeral

/-!
The tokens of JSON text.

A text may hold escapes for units of 16 bits; it stands for a string if these pair up to characters.
-/

set_option autoImplicit false
set_option relaxedAutoImplicit false

namespace Horn.Json

inductive Token where
  | openArray
  | closeArray
  | openObject
  | closeObject
  | comma
  | colon
  | null
  | bool (value : Bool)
  | number (numeral : Numeral)
  | text (value : Option String)
  deriving DecidableEq, Repr

/-- A piece of a text between quotes: a character, or a unit given by four hexadecimal digits. -/
inductive Piece where
  | char (c : Char)
  | unit (value : Nat)
  deriving DecidableEq, Repr

/-- The unit that four hexadecimal digits give. -/
def unit? (digits : List Char) : Option Nat :=
  if digits.all (Radix.isDigit 16) then some (Radix.value 16 digits) else none

/-- The character that a backslash and one more character stand for. -/
def escaped? : Char → Option Char
  | '"' => some '"'
  | '\\' => some '\\'
  | '/' => some '/'
  | 'b' => some '\x08'
  | 'f' => some '\x0c'
  | 'n' => some '\n'
  | 'r' => some '\r'
  | 't' => some '\t'
  | _ => none

/-- Reads the pieces of a text up to its closing quote, and returns what follows it. -/
def readPieces? : List Char → Option (List Piece × List Char)
  | [] => none
  | '"' :: rest => some ([], rest)
  | '\\' :: 'u' :: a :: b :: c :: d :: rest =>
    (unit? [a, b, c, d]).bind fun value =>
      (readPieces? rest).map fun (pieces, rest) => (.unit value :: pieces, rest)
  | '\\' :: c :: rest =>
    (escaped? c).bind fun c =>
      (readPieces? rest).map fun (pieces, rest) => (.char c :: pieces, rest)
  | c :: rest =>
    if c.toNat < 32 ∨ c = '\\' then none
    else (readPieces? rest).map fun (pieces, rest) => (.char c :: pieces, rest)

def isHighUnit (value : Nat) : Bool :=
  0xd800 ≤ value && value < 0xdc00

def isLowUnit (value : Nat) : Bool :=
  0xdc00 ≤ value && value < 0xe000

/-- The characters that pieces stand for, unless a high or a low unit lacks its partner. -/
def decodePieces? : List Piece → Option (List Char)
  | [] => some []
  | .char c :: rest => (decodePieces? rest).map (c :: ·)
  | .unit high :: .unit low :: rest =>
    if isHighUnit high && isLowUnit low then
      let point := 0x10000 + (high - 0xd800) * 0x400 + (low - 0xdc00)
      (decodePieces? rest).map (Char.ofNat point :: ·)
    else if isHighUnit high || isLowUnit high then none
    else (decodePieces? (.unit low :: rest)).map (Char.ofNat high :: ·)
  | .unit value :: rest =>
    if isHighUnit value || isLowUnit value then none
    else (decodePieces? rest).map (Char.ofNat value :: ·)

def isDigit (c : Char) : Bool :=
  Radix.isDigit 10 c

/-- Reads a point and the digits behind it, if there is a point. -/
def readFraction? : List Char → Option (List Char × List Char)
  | '.' :: rest =>
    let digits := rest.takeWhile isDigit
    if digits.isEmpty then none else some (digits, rest.dropWhile isDigit)
  | text => some ([], text)

/-- Reads the digits of an exponent. -/
def readExponentDigits? (negative : Bool) (text : List Char) :
    Option (Option (Bool × List Char) × List Char) :=
  let digits := text.takeWhile isDigit
  if digits.isEmpty then none else some (some (negative, digits), text.dropWhile isDigit)

/-- Reads an exponent, if there is one. -/
def readExponent? : List Char → Option (Option (Bool × List Char) × List Char)
  | c :: rest =>
    if c = 'e' ∨ c = 'E' then
      match rest with
      | '-' :: digits => readExponentDigits? true digits
      | '+' :: digits => readExponentDigits? false digits
      | digits => readExponentDigits? false digits
    else some (none, c :: rest)
  | [] => some (none, [])

/-- Reads a number behind its sign; only a single digit may be a leading zero. -/
def readNumeral? (negative : Bool) (text : List Char) : Option (Numeral × List Char) :=
  let whole := text.takeWhile isDigit
  if whole.isEmpty || (whole.head? == some '0' && whole.length ≠ 1) then none
  else
    (readFraction? (text.dropWhile isDigit)).bind fun (fraction, rest) =>
      (readExponent? rest).map fun (exponent, rest) => (⟨negative, whole, fraction, exponent⟩, rest)

/-- Reads the token at the front of a text that does not begin with white space. -/
def readToken? : List Char → Option (Token × List Char)
  | '[' :: rest => some (.openArray, rest)
  | ']' :: rest => some (.closeArray, rest)
  | '\x7b' :: rest => some (.openObject, rest)
  | '\x7d' :: rest => some (.closeObject, rest)
  | ',' :: rest => some (.comma, rest)
  | ':' :: rest => some (.colon, rest)
  | 'n' :: 'u' :: 'l' :: 'l' :: rest => some (.null, rest)
  | 't' :: 'r' :: 'u' :: 'e' :: rest => some (.bool true, rest)
  | 'f' :: 'a' :: 'l' :: 's' :: 'e' :: rest => some (.bool false, rest)
  | '"' :: rest =>
    (readPieces? rest).map fun (pieces, rest) =>
      (.text ((decodePieces? pieces).map String.ofList), rest)
  | '-' :: rest => (readNumeral? true rest).map fun (n, rest) => (.number n, rest)
  | text => (readNumeral? false text).map fun (n, rest) => (.number n, rest)

/-- White space between tokens. -/
def isSpace (c : Char) : Bool :=
  c == ' ' || c == '\n' || c == '\t' || c == '\r'

/-- Reads so many tokens at most. -/
def readTokens? : (fuel : Nat) → List Char → Option (List Token)
  | 0, _ => none
  | fuel + 1, text =>
    match text.dropWhile isSpace with
    | [] => some []
    | c :: rest =>
      (readToken? (c :: rest)).bind fun (token, rest) =>
        (readTokens? fuel rest).map (token :: ·)

/-- The tokens of a text; each takes one character at the least. -/
def tokens? (text : String) : Option (List Token) :=
  readTokens? (text.length + 1) text.toList

end Horn.Json
