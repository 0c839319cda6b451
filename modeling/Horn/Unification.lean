import Horn.Bindings
import Horn.Renaming

/-!
Unification of two facts of one predicate.

Literals that face each other are compared first. Then the argument places are visited from left to
right: variables that face each other become one class, represented by the right one, and a class
that meets a literal is bound to it. A class carries the conditions that are written at its
variables, and the literal it is bound to has to satisfy them.
-/

set_option autoImplicit false
set_option relaxedAutoImplicit false

namespace Horn

/-- Whether no two literals that face each other in two argument lists differ. -/
def Atom.agree : List Atom → List Atom → Bool
  | .lit a :: lefts, .lit b :: rights => a == b && agree lefts rights
  | _ :: lefts, _ :: rights => agree lefts rights
  | _, _ => true

/-- A condition on the class that a variable represents. -/
structure Demand where
  name : VarName
  condition : Condition
  deriving Inhabited

/-- The condition that is written at a variable. -/
def Variable.demand? (v : Variable) : Option Demand :=
  v.condition.map (Demand.mk v.name)

/-- The same condition on the class that `target` represents if it was on that of `source`. -/
def Demand.move (source target : VarName) (d : Demand) : Demand :=
  if d.name = source then { d with name := target } else d

/-- Bindings on the way, with the conditions on the classes that they have joined. -/
structure Unifier where
  bindings : Bindings
  demands : List Demand
  deriving Inhabited

namespace Unifier

/-- Nothing is bound, and every condition is on the variable at which it is written. -/
def start (head goal : Fact) : Unifier :=
  ⟨∅, (head.occurrences ++ goal.occurrences).filterMap Variable.demand?⟩

/-- Binds a class to a literal, provided that it satisfies the conditions on the class. -/
def bindLiteral (u : Unifier) (name : VarName) (value : Literal) : Option Unifier :=
  if u.demands.all fun d => d.name != name || d.condition.holds value then
    some { u with bindings := u.bindings.bind name (.lit value) }
  else none

/-- Links a class to another one, which takes over its conditions. -/
def bindVariable (u : Unifier) (source target : VarName) : Unifier where
  bindings := u.bindings.bind source (.var target)
  demands := u.demands.map (Demand.move source target)

/-- Makes two terms equal, by one more binding at most. -/
def unifyTerms (u : Unifier) (left right : Term) : Option Unifier :=
  match u.bindings.resolve left, u.bindings.resolve right with
  | .lit a, .lit b => if a == b then some u else none
  | .var x, .lit value => u.bindLiteral x value
  | .lit value, .var y => u.bindLiteral y value
  | .var x, .var y => some (if x = y then u else u.bindVariable x y)

/-- Makes the arguments at each place equal, from left to right. -/
def unifyArgs (u : Unifier) : List Atom → List Atom → Option Unifier
  | left :: lefts, right :: rights =>
    (u.unifyTerms left.term right.term).bind fun u => u.unifyArgs lefts rights
  | _, _ => some u

end Unifier

/-- The bindings that make two facts equal, if there are any that respect the conditions in both; a
name denotes one variable in both facts. -/
def unify (head goal : Fact) : Option Bindings :=
  if head.functor = goal.functor ∧ head.arity = goal.arity ∧ Atom.agree head.args goal.args then
    ((Unifier.start head goal).unifyArgs head.args goal.args).map Unifier.bindings
  else none

/-- The least number above all fresh numbers of a fact. -/
def Fact.freshBound (f : Fact) : Nat :=
  f.varNames.foldl
    (fun bound name =>
      match name with
      | .fresh number => max bound (number + 1)
      | .named _ => bound)
    0

/-- Whether a clause head, its variables renamed apart, unifies with a goal. -/
def Fact.canResolve (head goal : Fact) : Bool :=
  let names := Numbering.ofFacts [head]
  (unify (head.rename (names.fresh goal.freshBound)) goal).isSome

end Horn
