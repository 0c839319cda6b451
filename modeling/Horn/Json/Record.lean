import Horn.Json.Value

/-!
Reading records and choices from JSON values.

A record is an object, or an array with the fields in order; a choice is an object with one field,
or the mere name of a case that carries nothing. The depth counts how many arrays and objects may
still be entered.
-/

set_option autoImplicit false
set_option relaxedAutoImplicit false

namespace Horn.Json

/-- How deep arrays and objects may be nested where they are read. -/
def maxDepth : Nat := 127

/-- The depth inside an array or object. -/
def enter? : Nat → Option Nat
  | 0 => none
  | depth + 1 => some depth

/-- A reader of values of a type at a depth. -/
abbrev Reader (α : Type) := (depth : Nat) → Json → Option α

def readText? : Json → Option String
  | .text value => value
  | _ => none

def readNatural? : Json → Option Nat
  | .number n => n.natural?
  | _ => none

def readInteger? : Json → Option Int64
  | .number n => n.integer?
  | _ => none

def readFloat? : Json → Option Float
  | .number n => n.float?
  | _ => none

/-- An array of values of one type. -/
def readArray? {α : Type} (reader : Reader α) : Reader (List α)
  | depth, .array items => (enter? depth).bind fun depth => items.mapM (reader depth)
  | _, _ => none

/-- The value of a field that an object may have once. The outer result is missing if it occurs
more than once. -/
def uniqueField? (name : String) (fields : List (Option String × Json)) : Option (Option Json) :=
  match fields.filter fun field => field.1 == some name with
  | [] => some none
  | [field] => some (some field.2)
  | _ => none

/-- The fields of a record, in order. -/
structure Record where
  /-- Whether the record is written as an array. -/
  positional : Bool
  fields : List (Option Json)

/-- The fields with given names. An object may have other fields too; an array may be too short but
not too long. -/
def Record.ofJson? (names : List String) : Json → Option Record
  | .array items =>
    if items.length ≤ names.length then
      some ⟨true, (List.range names.length).map (items[·]?)⟩
    else none
  | .object fields =>
    if fields.all (·.1.isSome) then (names.mapM (uniqueField? · fields)).map (⟨false, ·⟩)
    else none
  | _ => none

/-- Reads a record: the fields are handed on with the depth inside it. -/
def readRecord? {α : Type} (names : List String) (reader : Nat → Record → Option α) : Reader α :=
  fun depth json =>
    (enter? depth).bind fun depth => (Record.ofJson? names json).bind (reader depth)

/-- The name of a case without content: a text, or the key of an object whose value is null. -/
def readCase? : Reader String
  | _, .text value => value
  | depth, .object [(key, .null)] => (enter? depth).bind fun _ => key
  | _, _ => none

/-- The name of a case with what it carries. -/
def readContent? {α : Type} (reader : String → Reader α) : Reader α
  | depth, .object [(some name, content)] =>
    (enter? depth).bind fun depth => reader name depth content
  | _, _ => none

end Horn.Json
