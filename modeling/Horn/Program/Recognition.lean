import Horn.Clause
import Horn.Fact.Alpha
import Horn.Renaming

/-!
When two clauses count as one.

Each goal of one body is paired with the first unused goal of the other that has the same shape,
where variables of the head are known by their place in it and all others look alike. The clauses
are one if head and goals, paired this way, are equal up to the names of variables.
-/

set_option autoImplicit false
set_option relaxedAutoImplicit false

namespace Horn.Clause

/-- The number of a variable among those of the head; variables of the body alone have none. -/
def headPlace (head : Numbering) (name : VarName) : Option Nat :=
  if name ∈ head then some (head.number name) else none

/-- Whether two arguments of body goals have the same shape. -/
def sameShapeAtom (left right : Numbering) : Atom → Atom → Bool
  | .lit a, .lit b => a == b
  | .var a, .var b =>
    headPlace left a.name == headPlace right b.name && a.condition == b.condition
  | _, _ => false

/-- Whether two argument lists have the same shape. -/
def sameShapeArgs (left right : Numbering) : List Atom → List Atom → Bool
  | [], [] => true
  | a :: as, b :: bs => sameShapeAtom left right a b && sameShapeArgs left right as bs
  | _, _ => false

/-- Whether two body goals have the same shape, seen from their heads. -/
def sameShape (left right : Numbering) (f g : Fact) : Bool :=
  f.functor == g.functor && sameShapeArgs left right f.args g.args

/-- Puts the second list into the order of the first: for each goal the first unused one of the
same shape. Nothing if the lists do not pair off. -/
def arrange (left right : Numbering) : List Fact → List Fact → Option (List Fact)
  | [], [] => some []
  | [], _ :: _ => none
  | f :: fs, gs =>
    match gs.find? (sameShape left right f) with
    | none => none
    | some g => (arrange left right fs (gs.eraseP (sameShape left right f))).map (g :: ·)

/-- Whether a clause is the one that a declaration states. -/
def isDeclaredBy (c : Clause) (head : Fact) (body : List Fact) : Bool :=
  match arrange (.ofFacts [c.head]) (.ofFacts [head]) c.body body with
  | none => false
  | some goals => Fact.alikeAll c.facts (head :: goals)

end Horn.Clause
