import Horn.Fact.Basic

/-!
Bindings of variables to literals or to other variables.

A variable is bound while nothing older stands for it, so the bindings can be followed in one pass
from the oldest to the newest. `Bindings.substitute` puts the outcome into a fact, and
`Bindings.respects` tells whether the conditions at the places that received a literal hold.
-/

set_option autoImplicit false
set_option relaxedAutoImplicit false

namespace Horn

/-- What can stand in an argument place once conditions are set aside. -/
inductive Term where
  | var (name : VarName)
  | lit (value : Literal)
  deriving Inhabited

/-- An argument without the condition written at it. -/
def Atom.term : Atom → Term
  | .var v => .var v.name
  | .lit value => .lit value

/-- One variable and what it is bound to. -/
structure Binding where
  name : VarName
  target : Term
  deriving Inhabited

/-- Follows one binding. -/
def Binding.follow (entry : Binding) : Term → Term
  | .var name => if name = entry.name then entry.target else .var name
  | .lit value => .lit value

/-- Bindings, the newest first. -/
structure Bindings where
  entries : List Binding
  deriving Inhabited

namespace Bindings

def empty : Bindings := ⟨[]⟩

instance : EmptyCollection Bindings := ⟨empty⟩

def size (b : Bindings) : Nat :=
  b.entries.length

def isEmpty (b : Bindings) : Bool :=
  b.entries.isEmpty

def bind (b : Bindings) (name : VarName) (target : Term) : Bindings :=
  ⟨⟨name, target⟩ :: b.entries⟩

/-- What a variable was bound to directly. -/
def target? (b : Bindings) (name : VarName) : Option Term :=
  (b.entries.find? fun entry => entry.name = name).map Binding.target

/-- Follows the bindings, oldest first, to a literal or a variable that is not bound. -/
def resolve (b : Bindings) (t : Term) : Term :=
  b.entries.foldr Binding.follow t

/-- What a bound variable stands for in the end. -/
def get? (b : Bindings) (name : VarName) : Option Term :=
  (b.target? name).map b.resolve

/-- Replaces a variable by what it stands for; a variable that replaces another takes over the
condition at the place. -/
def substituteAtom (b : Bindings) : Atom → Atom
  | .var v =>
    match b.resolve (.var v.name) with
    | .var name => .var { v with name }
    | .lit value => .lit value
  | .lit value => .lit value

/-- Whether the condition at a place that receives a literal holds of it. -/
def respectsAtom (b : Bindings) : Atom → Bool
  | .var v =>
    v.condition.all fun condition =>
      match b.resolve (.var v.name) with
      | .var _ => true
      | .lit value => condition.holds value
  | .lit _ => true

/-- Replaces every variable of a fact by what it stands for. -/
def substitute (b : Bindings) (f : Fact) : Fact :=
  { f with args := f.args.map b.substituteAtom }

/-- Whether a variable of a fact is bound. -/
def touches (b : Bindings) (f : Fact) : Bool :=
  f.args.any fun
    | .var v => b.entries.any fun entry => entry.name = v.name
    | .lit _ => false

/-- Whether all conditions at places that receive a literal hold. -/
def respects (b : Bindings) (f : Fact) : Bool :=
  f.args.all b.respectsAtom

@[simp] theorem resolve_lit (b : Bindings) (value : Literal) :
    b.resolve (.lit value) = .lit value := by
  obtain ⟨entries⟩ := b
  induction entries with
  | nil => rfl
  | cons entry rest ih =>
    simp only [resolve, List.foldr_cons] at ih ⊢
    rw [ih]
    rfl

@[simp] theorem resolve_empty (t : Term) : (∅ : Bindings).resolve t = t := rfl

theorem resolve_bind (b : Bindings) (name : VarName) (target t : Term) :
    (b.bind name target).resolve t = Binding.follow ⟨name, target⟩ (b.resolve t) := rfl

theorem resolve_eq_self {b : Bindings} {name : VarName}
    (h : b.entries.any (fun entry => entry.name = name) = false) :
    b.resolve (.var name) = .var name := by
  obtain ⟨entries⟩ := b
  induction entries with
  | nil => rfl
  | cons entry rest ih =>
    simp only [List.any_cons, Bool.or_eq_false_iff, decide_eq_false_iff_not] at h
    have : (⟨rest⟩ : Bindings).resolve (.var name) = .var name := ih h.2
    simp only [resolve, List.foldr_cons] at this ⊢
    rw [this, Binding.follow, if_neg (Ne.symm h.1)]

/-- A fact without bound variables stays as it is. -/
theorem substitute_eq_self {b : Bindings} {f : Fact} (h : b.touches f = false) :
    b.substitute f = f := by
  have : f.args.map b.substituteAtom = f.args := by
    refine (List.map_congr_left fun arg ha => ?_).trans (List.map_id f.args)
    have := List.any_eq_false.1 h arg ha
    cases arg with
    | lit _ => rfl
    | var v => simp only [substituteAtom, resolve_eq_self (Bool.eq_false_iff.2 this), id]
  rw [substitute, this]

@[simp] theorem functor_substitute (b : Bindings) (f : Fact) :
    (b.substitute f).functor = f.functor := rfl

@[simp] theorem arity_substitute (b : Bindings) (f : Fact) :
    (b.substitute f).arity = f.arity := by
  simp [substitute, Fact.arity]

end Bindings

end Horn
