import Horn.Builtin.Ambient
import Horn.Builtin.List
import Horn.Fact.Key

/-!
The built-in predicates: their names, their arities and what they do.

A built-in of arity `n` reads its first `n - 1` arguments and yields the last one. It has no value
where it does not apply, and none that contains an infinite number or NaN.
-/

set_option autoImplicit false
set_option relaxedAutoImplicit false

namespace Horn.Builtin

/-- The arities of a built-in; a variadic one reaches up to a bound that the registry sets. -/
inductive Arities where
  | fixed (arity : Nat)
  | range (low high : Nat)
  | variadic (low : Nat)
  deriving DecidableEq, Repr

/-- The least arity. -/
def Arities.low : Arities → Nat
  | .fixed arity => arity
  | .range low _ => low
  | .variadic low => low

/-- The greatest arity; a variadic built-in has its least arity in any case. -/
def Arities.high (bound : Nat) : Arities → Nat
  | .fixed arity => arity
  | .range _ high => high
  | .variadic low => Nat.max bound low

/-- A built-in predicate. -/
structure Entry where
  name : String
  arities : Arities
  action : Action

/-- All built-ins, in the order in which they are listed. -/
def catalogue : List Entry :=
  [⟨"add", .variadic 3, .compute add⟩,
    ⟨"sub", .fixed 3, .compute sub⟩,
    ⟨"mul", .variadic 3, .compute mul⟩,
    ⟨"div", .fixed 3, .compute div⟩,
    ⟨"mod", .fixed 3, .compute modulo⟩,
    ⟨"pow", .fixed 3, .compute pow⟩,
    ⟨"sqrt", .fixed 2, .compute sqrt⟩,
    ⟨"log", .fixed 3, .compute log⟩,
    ⟨"round", .fixed 3, .compute round⟩,
    ⟨"trunc", .fixed 2, .compute trunc⟩,
    ⟨"floor", .fixed 2, .compute floor⟩,
    ⟨"ceil", .fixed 2, .compute ceil⟩,
    ⟨"abs", .fixed 2, .compute abs⟩,
    ⟨"eval", .variadic 3, .compute eval⟩,
    ⟨"bit_and", .fixed 3, .compute bitAnd⟩,
    ⟨"bit_or", .fixed 3, .compute bitOr⟩,
    ⟨"bit_xor", .fixed 3, .compute bitXor⟩,
    ⟨"bit_neg", .fixed 2, .compute bitNeg⟩,
    ⟨"bit_shift_left", .fixed 3, .compute shiftLeft⟩,
    ⟨"bit_shift_right", .fixed 3, .compute shiftRight⟩,
    ⟨"eql", .fixed 3, .compute eql⟩,
    ⟨"neq", .fixed 3, .compute neq⟩,
    ⟨"max", .variadic 2, .compute max⟩,
    ⟨"min", .variadic 2, .compute min⟩,
    ⟨"gt", .fixed 3, .compute gt⟩,
    ⟨"lt", .fixed 3, .compute lt⟩,
    ⟨"gte", .fixed 3, .compute gte⟩,
    ⟨"lte", .fixed 3, .compute lte⟩,
    ⟨"as_string", .range 2 3, .compute asString⟩,
    ⟨"as_integer", .range 2 3, .compute asInteger⟩,
    ⟨"as_float", .fixed 2, .compute asFloat⟩,
    ⟨"ord", .fixed 2, .compute ord⟩,
    ⟨"char", .fixed 2, .compute char⟩,
    ⟨"split", .fixed 3, .compute split⟩,
    ⟨"len", .fixed 2, .compute len⟩,
    ⟨"concat", .variadic 3, .compute concat⟩,
    ⟨"slice", .fixed 4, .compute slice⟩,
    ⟨"index", .fixed 4, .compute index⟩,
    ⟨"head", .fixed 2, .compute head⟩,
    ⟨"tail", .fixed 2, .compute tail⟩,
    ⟨"push", .fixed 3, .compute push⟩,
    ⟨"append", .fixed 3, .compute append⟩,
    ⟨"put", .fixed 4, .compute put⟩,
    ⟨"unique", .fixed 2, .compute unique⟩,
    ⟨"reverse", .fixed 2, .compute reverse⟩,
    ⟨"sort", .fixed 2, .compute sort⟩,
    ⟨"sum", .fixed 2, .compute sum⟩,
    ⟨"join", .fixed 3, .compute join⟩,
    ⟨"init", .fixed 3, .compute init⟩,
    ⟨"set", .fixed 2, .compute set⟩,
    ⟨"rand", .fixed 1, .random⟩,
    ⟨"type", .fixed 2, .compute typeOf⟩,
    ⟨"print", .range 2 3, .print⟩,
    ⟨"time", .range 1 2, .clock⟩]

mutual

/-- Whether a literal contains neither an infinite number nor a NaN. -/
def isFiniteLiteral : Literal → Bool
  | .float x => Binary64.isFinite x
  | .list items => areFiniteItems items
  | .integer _ | .text _ => true

def areFiniteItems : List Literal → Bool
  | [] => true
  | item :: rest => isFiniteLiteral item && areFiniteItems rest

end

/-- The built-ins with the greatest arity of variadic ones. -/
structure Registry where
  bound : Nat
  deriving DecidableEq, Repr

namespace Registry

/-- The built-in with a name. -/
def find? (_ : Registry) (name : String) : Option Entry :=
  catalogue.find? fun entry => entry.name = name

/-- Whether a built-in has an arity. -/
def hasArity (r : Registry) (entry : Entry) (arity : Nat) : Bool :=
  entry.arities.low ≤ arity && arity ≤ entry.arities.high r.bound

/-- Whether a name is a built-in at an arity. -/
def contains (r : Registry) (name : String) (arity : Nat) : Bool :=
  (r.find? name).any (r.hasArity · arity)

/-- Whether a key spells a built-in and one of its arities. -/
def containsKey (r : Registry) (key : String) : Bool :=
  (readKey? key).any fun (name, arity) => r.contains name arity

/-- The action of a built-in that takes this many inputs. -/
def action? (r : Registry) (name : String) (inputs : Nat) : Option Action :=
  ((r.find? name).filter (r.hasArity · (inputs + 1))).map Entry.action

/-- The value of a built-in for its inputs, and the ambient afterwards. -/
def evaluate (r : Registry) (name : String) (inputs : List Literal) (ambient : Ambient) :
    Option Literal × Ambient :=
  match r.action? name inputs.length with
  | none => (none, ambient)
  | some action =>
    let (value, ambient) := action.run inputs ambient
    (value.filter isFiniteLiteral, ambient)

/-- The keys of a built-in, by ascending arity. -/
def entryKeys (r : Registry) (entry : Entry) : List String :=
  let low := entry.arities.low
  (List.range' low (entry.arities.high r.bound + 1 - low)).map (predicateKey entry.name)

/-- The keys of all built-ins. -/
def keys (r : Registry) : List String :=
  catalogue.flatMap r.entryKeys

end Registry

end Horn.Builtin
