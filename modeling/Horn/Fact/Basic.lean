import Horn.Condition

/-!
Facts: a functor applied to variables and literals.

A variable may carry a condition at each of its occurrences. Equality of facts up to the names of
their variables is in `Horn.Fact.Alpha`.
-/

set_option autoImplicit false
set_option relaxedAutoImplicit false

namespace Horn

/-- The name of a variable: written by a user, or a number given while clauses are renamed. -/
inductive VarName where
  | named (name : String)
  | fresh (number : Nat)
  deriving DecidableEq, Repr, Hashable, Inhabited

def VarName.toText : VarName → String
  | .named name => name
  | .fresh number => "_" ++ Radix.render 10 number

/-- An occurrence of a variable with the condition written at it, if any. -/
structure Variable where
  name : VarName
  condition : Option Condition
  deriving Inhabited

def Variable.toText (v : Variable) : String :=
  match v.condition with
  | none => v.name.toText
  | some condition => v.name.toText ++ " " ++ condition.toText

/-- An argument of a fact. -/
inductive Atom where
  | var (occurrence : Variable)
  | lit (value : Literal)
  deriving Inhabited

namespace Atom

def isConstant : Atom → Bool
  | .var _ => false
  | .lit _ => true

def literal? : Atom → Option Literal
  | .var _ => none
  | .lit value => some value

def occurrence? : Atom → Option Variable
  | .var occurrence => some occurrence
  | .lit _ => none

def toText : Atom → String
  | .var occurrence => occurrence.toText
  | .lit value => value.toText

end Atom

/-- The texts of the arities below 32. -/
def smallArities : Array String :=
  (Array.range 32).map fun arity : Nat => Radix.render 10 arity

/-- The text of an arity, which is looked up if the arity is small. -/
def arityText (arity : Nat) : String :=
  match smallArities[arity]? with
  | some text => text
  | none => Radix.render 10 arity

theorem arityText_eq (arity : Nat) : arityText arity = Radix.render 10 arity := by
  rw [arityText, smallArities, Array.getElem?_map, Array.getElem?_range]
  by_cases h : arity < 32
  · rw [if_pos h]
    rfl
  · rw [if_neg h]
    rfl

/-- The key of a predicate: its functor and its arity. -/
def predicateKey (functor : String) (arity : Nat) : String :=
  functor ++ "/" ++ arityText arity

/-- A functor applied to arguments. -/
structure Fact where
  functor : String
  args : List Atom
  deriving Inhabited

namespace Fact

def arity (f : Fact) : Nat :=
  f.args.length

def key (f : Fact) : String :=
  predicateKey f.functor f.arity

/-- A fact is ground if no argument is a variable. -/
def isGround (f : Fact) : Bool :=
  f.args.all Atom.isConstant

/-- The arguments of a ground fact. -/
def literals? (f : Fact) : Option (List Literal) :=
  f.args.mapM Atom.literal?

/-- The same arguments under another functor. -/
def withFunctor (f : Fact) (functor : String) : Fact :=
  { f with functor }

/-- A functor applied to literals. -/
def ofLiterals (functor : String) (values : List Literal) : Fact :=
  ⟨functor, values.map .lit⟩

/-- The occurrences of variables, from left to right. -/
def occurrences (f : Fact) : List Variable :=
  f.args.filterMap Atom.occurrence?

/-- The variable names, from left to right, with repetitions. -/
def varNames (f : Fact) : List VarName :=
  f.occurrences.map Variable.name

def toText (f : Fact) : String :=
  f.functor ++ "(" ++ ", ".intercalate (f.args.map Atom.toText) ++ ")"

end Fact

end Horn
