import Horn.Builtin.Cast
import Horn.Text.Cut

/-!
Built-in operations on texts and lists, where positions of a text count characters.
-/

set_option autoImplicit false
set_option relaxedAutoImplicit false

namespace Horn.Builtin

/-- A position or a length; it cannot be negative. -/
def position? (value : Int64) : Option Nat :=
  if value.toInt < 0 then none else some value.toInt.toNat

/-- Cuts a text at every occurrence of a separator, from left to right and without overlap; `done`
holds the pieces before the text, the last one first. -/
def piecesOnto (separator : List Char) (nonempty : separator ≠ []) (done : List (List Char))
    (text : List Char) : List (List Char) :=
  match _h : Text.cut? separator text with
  | none => (text :: done).reverse
  | some (piece, rest) => piecesOnto separator nonempty (piece :: done) rest
termination_by text.length
decreasing_by
  have := congrArg List.length (Text.eq_append_of_cut? ‹_›)
  have := List.length_pos_iff.2 nonempty
  simp only [List.length_append] at *
  omega

/-- The pieces of a text between the occurrences of a separator; an empty separator cuts between
all characters. -/
def pieces (separator text : List Char) : List (List Char) :=
  if h : separator = [] then text.map fun c => [c] else piecesOnto separator h [] text

/-- A list without the empty pieces at its end. -/
def dropEmptyEnd (pieces : List (List Char)) : List (List Char) :=
  (pieces.reverse.dropWhile List.isEmpty).reverse

def split : Operation
  | [.text text, .text separator] =>
    let parts := dropEmptyEnd (pieces separator.toList text.toList)
    some (.list (parts.map fun part => .text (String.ofList part)))
  | _ => none

def len : Operation
  | [.text value] => countLiteral? value.length
  | [.list items] => countLiteral? items.length
  | _ => none

def text? : Literal → Option String
  | .text value => some value
  | _ => none

def items? : Literal → Option (List Literal)
  | .list items => some items
  | _ => none

/-- Joins texts, or joins lists. -/
def concat : Operation
  | [] => none
  | .text first :: rest =>
    ((Literal.text first :: rest).mapM text?).map fun parts => .text (String.join parts)
  | .list first :: rest =>
    ((Literal.list first :: rest).mapM items?).map fun parts => .list parts.flatten
  | _ => none

/-- A part of a sequence; its start may be the end of the sequence but not lie behind it. -/
def part? {α : Type} (items : List α) (start length : Nat) : Option (List α) :=
  if start ≤ items.length then some ((items.drop start).take length) else none

def slice : Operation
  | [value, .integer start, .integer length] =>
    (position? start).bind fun start =>
      (position? length).bind fun length =>
        match value with
        | .text text => (part? text.toList start length).map fun cs => .text (String.ofList cs)
        | .list items => (part? items start length).map .list
        | _ => none
  | _ => none

/-- The first position, not before `start`, at which a pattern begins in a text. -/
def occurrence? (text pattern : List Char) (start : Nat) : Option Nat :=
  if start ≤ text.length then
    (Text.cut? pattern (text.drop start)).map fun (before, _) => start + before.length
  else none

/-- The first position, not before `start`, of an equal element. -/
def elementPlace? (items : List Literal) (value : Literal) (start : Nat) : Option Nat :=
  ((items.drop start).findIdx? (· == value)).map (· + start)

/-- A position that was found, or minus one. -/
def foundLiteral? : Option Nat → Option Literal
  | some place => countLiteral? place
  | none => some (.integer (-1))

def index : Operation
  | [.text text, .text pattern, .integer start] =>
    (position? start).bind fun start =>
      foundLiteral? (occurrence? text.toList pattern.toList start)
  | [.list items, value, .integer start] =>
    (position? start).bind fun start => foundLiteral? (elementPlace? items value start)
  | _ => none

end Horn.Builtin
