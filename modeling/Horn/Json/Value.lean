import Horn.Json.Token

/-!
JSON values, and how tokens build one up.

The fields of an object keep their order, and a key may occur more than once.
-/

set_option autoImplicit false
set_option relaxedAutoImplicit false

namespace Horn

/-- A JSON value. A text, or the key of a field, is missing where it stands for no string. -/
inductive Json where
  | null
  | bool (value : Bool)
  | number (numeral : Json.Numeral)
  | text (value : Option String)
  | array (items : List Json)
  | object (fields : List (Option String × Json))
  deriving Inhabited

namespace Json

/-- What surrounds a value that is being read: an array with the items before it, or an object with
the fields before it and the key of the value; the last item or field comes first. -/
inductive Frame where
  | array (items : List Json)
  | object (fields : List (Option String × Json)) (key : Option String)

/-- What has to follow: a value; the first item of an array or its end; the first field of an object
or its end; a field behind a comma; the colon behind a key; or whatever may stand behind a complete
value. -/
inductive Reading where
  | value (around : List Frame)
  | firstItem (around : List Frame)
  | firstField (around : List Frame)
  | field (before : List (Option String × Json)) (around : List Frame)
  | colon (before : List (Option String × Json)) (key : Option String) (around : List Frame)
  | behind (value : Json) (around : List Frame)

/-- Begins a value. -/
def beginValue? (around : List Frame) : Token → Option Reading
  | .openArray => some (.firstItem around)
  | .openObject => some (.firstField around)
  | .null => some (.behind .null around)
  | .bool value => some (.behind (.bool value) around)
  | .number numeral => some (.behind (.number numeral) around)
  | .text value => some (.behind (.text value) around)
  | _ => none

/-- Goes on with one token. -/
def Reading.next? : Reading → Token → Option Reading
  | .value around, token => beginValue? around token
  | .firstItem around, .closeArray => some (.behind (.array []) around)
  | .firstItem around, token => beginValue? (.array [] :: around) token
  | .firstField around, .closeObject => some (.behind (.object []) around)
  | .firstField around, .text key => some (.colon [] key around)
  | .field before around, .text key => some (.colon before key around)
  | .colon before key around, .colon => some (.value (.object before key :: around))
  | .behind item (.array items :: around), .comma =>
    some (.value (.array (item :: items) :: around))
  | .behind item (.array items :: around), .closeArray =>
    some (.behind (.array (item :: items).reverse) around)
  | .behind item (.object fields key :: around), .comma =>
    some (.field ((key, item) :: fields) around)
  | .behind item (.object fields key :: around), .closeObject =>
    some (.behind (.object ((key, item) :: fields).reverse) around)
  | _, _ => none

/-- The value that tokens spell. -/
def ofTokens? (tokens : List Token) : Option Json :=
  match tokens.foldlM Reading.next? (.value []) with
  | some (.behind value []) => some value
  | _ => none

/-- The value that a text spells, white space around it being allowed. -/
def ofText? (text : String) : Option Json :=
  (tokens? text).bind ofTokens?

end Json

end Horn
