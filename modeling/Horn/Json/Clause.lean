import Horn.Clause
import Horn.Json.Record
import Horn.Json.Writing

/-!
JSON forms of literals, conditions, variables, facts and clauses.
-/

set_option autoImplicit false
set_option relaxedAutoImplicit false

namespace Horn

open Json (Reader)

namespace Literal

mutual

/-- Writes a literal as the case of its kind. -/
def toJson : Literal → String
  | .integer value => Json.writeCase "Integer" (Json.writeInt value.toInt)
  | .float value => Json.writeCase "Float" (Json.writeFloat value)
  | .text value => Json.writeCase "String" (Json.writeText value)
  | .list items => Json.writeCase "List" (Json.writeArray (itemsToJson items))

def itemsToJson : List Literal → List String
  | [] => []
  | item :: rest => item.toJson :: itemsToJson rest

end

/-- Reads a literal. Each list lies two levels deeper than the literal it belongs to. -/
def ofJson? : Reader Literal
  | 0, _ => none
  | depth + 1, .object [(some "List", .array items)] =>
    match depth with
    | 0 => none
    | inner + 1 => (items.mapM (ofJson? inner)).map .list
  | _ + 1, .object [(some "Integer", value)] => (Json.readInteger? value).map .integer
  | _ + 1, .object [(some "Float", value)] => (Json.readFloat? value).map .float
  | _ + 1, .object [(some "String", value)] => (Json.readText? value).map .text
  | _ + 1, _ => none

end Literal

namespace Operator

/-- The name of an operator as a case. -/
def caseName : Operator → String
  | .lt => "Lt"
  | .le => "Le"
  | .gt => "Gt"
  | .ge => "Ge"
  | .ne => "Ne"
  | .type => "Type"

def all : List Operator := [.lt, .le, .gt, .ge, .ne, .type]

def ofJson? : Reader Operator := fun depth json =>
  (Json.readCase? depth json).bind fun name => all.find? fun op => op.caseName = name

end Operator

namespace Condition

def toJson (c : Condition) : String :=
  Json.writeObject [("op", Json.writeText c.operator.caseName), ("value", c.operand.toJson)]

def ofJson? : Reader Condition :=
  Json.readRecord? ["op", "value"] fun depth record =>
    match record.fields with
    | [some operator, some operand] =>
      (Operator.ofJson? depth operator).bind fun operator =>
        (Literal.ofJson? depth operand).map fun operand => ⟨operator, operand⟩
    | _ => none

end Condition

namespace VarName

def toJson : VarName → String
  | .named name => Json.writeCase "Named" (Json.writeText name)
  | .fresh number => Json.writeCase "Fresh" (Json.writeInt number)

def ofJson? : Reader VarName :=
  Json.readContent? fun name _ content =>
    if name = "Named" then (Json.readText? content).map .named
    else if name = "Fresh" then (Json.readNatural? content).map .fresh
    else none

end VarName

namespace Variable

def toJson (v : Variable) : String :=
  Json.writeObject
    [("name", v.name.toJson), ("condition", (v.condition.map Condition.toJson).getD "null")]

/-- The condition of a variable may be null, or missing from an object. -/
def conditionOfJson? (depth : Nat) (positional : Bool) : Option Json → Option (Option Condition)
  | none => if positional then none else some none
  | some .null => some none
  | some json => (Condition.ofJson? depth json).map some

def ofJson? : Reader Variable :=
  Json.readRecord? ["name", "condition"] fun depth record =>
    match record.fields with
    | [some name, condition] =>
      (VarName.ofJson? depth name).bind fun name =>
        (conditionOfJson? depth record.positional condition).map fun condition =>
          ⟨name, condition⟩
    | _ => none

end Variable

namespace Atom

def toJson : Atom → String
  | .var occurrence => Json.writeCase "Variable" occurrence.toJson
  | .lit value => Json.writeCase "Literal" value.toJson

def ofJson? : Reader Atom :=
  Json.readContent? fun name depth content =>
    if name = "Variable" then (Variable.ofJson? depth content).map .var
    else if name = "Literal" then (Literal.ofJson? depth content).map .lit
    else none

end Atom

namespace Fact

def toJson (f : Fact) : String :=
  Json.writeObject
    [("name", Json.writeText f.functor), ("args", Json.writeArray (f.args.map Atom.toJson))]

def ofJson? : Reader Fact :=
  Json.readRecord? ["name", "args"] fun depth record =>
    match record.fields with
    | [some functor, some args] =>
      (Json.readText? functor).bind fun functor =>
        (Json.readArray? Atom.ofJson? depth args).map fun args => ⟨functor, args⟩
    | _ => none

end Fact

namespace Clause

def toJson (c : Clause) : String :=
  Json.writeObject
    [("head", c.head.toJson), ("body", Json.writeArray (c.body.map Fact.toJson)),
      ("refcount", Json.writeInt c.count)]

def ofJson? : Reader Clause :=
  Json.readRecord? ["head", "body", "refcount"] fun depth record =>
    match record.fields with
    | [some head, some body, some count] =>
      (Fact.ofJson? depth head).bind fun head =>
        (Json.readArray? Fact.ofJson? depth body).bind fun body =>
          (Json.readNatural? count).map fun count => ⟨head, body, count⟩
    | _ => none

end Clause

end Horn
