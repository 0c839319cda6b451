import Horn.Builtin.Registry
import Horn.Clause
import Horn.Elementwise
import Horn.Proofs.Valuation

/-!
Derivations of ground facts from clauses and built-ins.

`Derivable` is the meaning of a program that no search enters into: a tuple belongs to a predicate if
an instance of a clause yields it from tuples that belong to the predicates of the body, or if a
built-in yields its last value from the others. Values are compared by equality of literals. Which
instances of clauses may be used is a parameter: all of them, or those that satisfy the conditions
written in the clause.
-/

set_option autoImplicit false
set_option relaxedAutoImplicit false

namespace Horn

open Builtin (Registry Ambient)

/-- The conditions written anywhere in a clause hold of the values of their variables. -/
def Clause.Admits (c : Clause) (θ : Valuation) : Prop :=
  ∀ f ∈ c.facts, f.Admits θ

/-- No condition is written in a fact. -/
def Fact.IsUnconditional (f : Fact) : Prop :=
  ∀ v ∈ f.occurrences, v.condition.isNone = true

/-- No condition is written anywhere in a clause. -/
def Clause.IsUnconditional (c : Clause) : Prop :=
  ∀ f ∈ c.facts, f.IsUnconditional

instance (f : Fact) : Decidable f.IsUnconditional :=
  inferInstanceAs (Decidable (∀ v ∈ f.occurrences, v.condition.isNone = true))

instance (c : Clause) : Decidable c.IsUnconditional :=
  inferInstanceAs (Decidable (∀ f ∈ c.facts, f.IsUnconditional))

theorem Fact.IsUnconditional.admits {f : Fact} (h : f.IsUnconditional) (θ : Valuation) :
    f.Admits θ := by
  intro v hv c hc
  have := h v hv
  rw [Option.isNone_iff_eq_none.1 this] at hc
  simp at hc

theorem Clause.IsUnconditional.admits {c : Clause} (h : c.IsUnconditional) (θ : Valuation) :
    c.Admits θ :=
  fun f hf => (h f hf).admits θ

/-- The fact has the predicate of another one. -/
def Fact.IsCallOf (f root : Fact) : Prop :=
  f.functor = root.functor ∧ f.arity = root.arity

instance (f root : Fact) : Decidable (f.IsCallOf root) :=
  inferInstanceAs (Decidable (_ ∧ _))

/-- The tuples of each predicate that clauses and built-ins yield by finite derivations, using the
allowed instances of clauses. The inputs of a built-in are taken as they are. -/
inductive Derivable (r : Registry) (clauses : List Clause) (Allowed : Clause → Valuation → Prop) :
    String → List Literal → Prop
  | clause {c : Clause} {θ : Valuation} {values : List Literal} (mem : c ∈ clauses)
      (allowed : Allowed c θ)
      (body : ∀ g ∈ c.body, Derivable r clauses Allowed g.functor (g.values θ))
      (head : (values == c.head.values θ) = true) :
      Derivable r clauses Allowed c.head.functor values
  | builtin {name : String} {inputs : List Literal} {output value : Literal} (ambient : Ambient)
      (evaluated : (r.evaluate name inputs ambient).1 = some output)
      (last : (value == output) = true) :
      Derivable r clauses Allowed name (inputs ++ [value])

/-- Any instance of a clause may be used, whatever its conditions say. -/
def anyInstance (_ : Clause) (_ : Valuation) : Prop :=
  True

/-- A tuple of a predicate follows from clauses if it is derivable with conditions set aside. -/
abbrev Follows (r : Registry) (clauses : List Clause) : String → List Literal → Prop :=
  Derivable r clauses anyInstance

/-- A name that no built-in has is no built-in at any arity. -/
theorem Builtin.Registry.contains_eq_false {name : String}
    (h : ∀ entry ∈ Builtin.catalogue, entry.name ≠ name) (r : Registry) (arity : Nat) :
    r.contains name arity = false := by
  have hnone : r.find? name = none := by
    rw [Registry.find?, List.find?_eq_none]
    simpa using h
  rw [contains, hnone]
  rfl

theorem Builtin.Registry.contains_of_evaluate {r : Registry} {name : String}
    {inputs : List Literal} {ambient : Ambient} {output : Literal}
    (h : (r.evaluate name inputs ambient).1 = some output) :
    r.contains name (inputs.length + 1) = true := by
  rw [Registry.evaluate] at h
  cases haction : r.action? name inputs.length with
  | none => simp [haction] at h
  | some action =>
    rw [Registry.action?, Option.map_eq_some_iff] at haction
    obtain ⟨entry, hentry, -⟩ := haction
    obtain ⟨hfind, harity⟩ := Option.filter_eq_some_iff.1 hentry
    simp [Registry.contains, hfind, harity]

namespace Derivable

variable {r : Registry} {clauses others : List Clause} {Allowed : Clause → Valuation → Prop}
  {name : String} {values : List Literal}

/-- What clauses yield, more clauses yield too. -/
theorem mono (sub : clauses ⊆ others) (h : Derivable r clauses Allowed name values) :
    Derivable r others Allowed name values := by
  induction h with
  | clause mem allowed _ head ih => exact .clause (sub mem) allowed ih head
  | builtin ambient evaluated last => exact .builtin ambient evaluated last

/-- With conditions set aside, heads and bodies are all that matters of clauses. -/
theorem of_facts (sub : ∀ c ∈ clauses, ∃ d ∈ others, d.head = c.head ∧ d.body = c.body)
    (h : Follows r clauses name values) : Follows r others name values := by
  induction h with
  | clause mem _ _ head ih =>
    obtain ⟨d, hd, hhead, hbody⟩ := sub _ mem
    exact hhead ▸ .clause hd trivial (hbody ▸ ih) (hhead ▸ head)
  | builtin ambient evaluated last => exact .builtin ambient evaluated last

/-- More instances yield no less. -/
theorem weaken {Other : Clause → Valuation → Prop} (sub : ∀ c ∈ clauses, ∀ θ, Allowed c θ → Other c θ)
    (h : Derivable r clauses Allowed name values) : Derivable r clauses Other name values := by
  induction h with
  | clause mem allowed _ head ih => exact .clause mem (sub _ mem _ allowed) ih head
  | builtin ambient evaluated last => exact .builtin ambient evaluated last

/-- A tuple of a predicate that is no built-in comes from a clause. -/
theorem exists_clause (user : r.contains name values.length = false)
    (h : Derivable r clauses Allowed name values) :
    ∃ c ∈ clauses, ∃ θ, Allowed c θ ∧ c.head.functor = name ∧
      (∀ g ∈ c.body, Derivable r clauses Allowed g.functor (g.values θ)) ∧
        (values == c.head.values θ) = true := by
  cases h with
  | clause mem allowed body head => exact ⟨_, mem, _, allowed, rfl, body, head⟩
  | builtin ambient evaluated last =>
    have hcontains := Registry.contains_of_evaluate evaluated
    simp_all

/-- Equal tuples of a predicate that is no built-in are derivable alike. -/
theorem of_beq (user : r.contains name values.length = false)
    (h : Derivable r clauses Allowed name values) {us : List Literal}
    (hus : (us == values) = true) : Derivable r clauses Allowed name us := by
  obtain ⟨c, mem, θ, allowed, rfl, body, head⟩ := h.exists_clause user
  exact .clause mem allowed body (BEq.trans hus head)

/-- A clause whose predicate no body calls adds nothing to the other predicates. -/
theorem of_cons_of_uncalled {c : Clause} (uncalled : ∀ d ∈ clauses, ∀ g ∈ d.body, ¬ g.IsCallOf c.head)
    (other : ¬ (name = c.head.functor ∧ values.length = c.head.arity))
    (h : Derivable r (c :: clauses) Allowed name values) : Derivable r clauses Allowed name values := by
  induction h with
  | @clause d θ values mem allowed _ head ih =>
    rcases List.mem_cons.1 mem with rfl | mem
    · have hlength : values.length = d.head.arity := by
        rw [List.length_eq_of_beq head, Fact.length_values]
      exact absurd ⟨rfl, hlength⟩ other
    · refine .clause mem allowed (fun g hg => ih g hg ?_) head
      rw [Fact.length_values]
      exact uncalled d mem g hg
  | builtin ambient evaluated last => exact .builtin ambient evaluated last

/-- A clause with a functor that no body has adds nothing to the other predicates. -/
theorem of_cons {c : Clause} (uncalled : ∀ d ∈ clauses, ∀ g ∈ d.body, g.functor ≠ c.head.functor)
    (other : name ≠ c.head.functor) (h : Derivable r (c :: clauses) Allowed name values) :
    Derivable r clauses Allowed name values :=
  h.of_cons_of_uncalled (fun d hd g hg hcall => uncalled d hd g hg hcall.1) fun hcall => other hcall.1

/-- Where only one clause has a head of some predicate, its tuples come from that clause. -/
theorem exists_of_cons {c : Clause} (user : r.contains c.head.functor values.length = false)
    (only : ∀ d ∈ clauses, d.head.functor ≠ c.head.functor)
    (h : Derivable r (c :: clauses) Allowed c.head.functor values) :
    ∃ θ, (∀ g ∈ c.body, Derivable r (c :: clauses) Allowed g.functor (g.values θ)) ∧
      (values == c.head.values θ) = true := by
  obtain ⟨d, mem, θ, -, hfunctor, body, head⟩ := h.exists_clause user
  rcases List.mem_cons.1 mem with rfl | mem
  · exact ⟨θ, body, head⟩
  · exact absurd hfunctor (only d mem)

end Derivable

end Horn
