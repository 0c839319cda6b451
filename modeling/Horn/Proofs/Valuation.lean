import Horn.Bindings
import Horn.Fact.Alpha
import Horn.Renaming
import Horn.Proofs.Literal.Congruence

/-!
Values for variables, and what facts come to under them.

A valuation gives every variable a literal. `Bindings.under` carries a valuation back through
bindings, and `Bindings.values_substitute` says that substituting first or valuing the variables by
what they stand for comes to the same. Values are compared by equality of literals throughout.
-/

set_option autoImplicit false
set_option relaxedAutoImplicit false

namespace Horn

/-- A literal for every variable. -/
abbrev Valuation := VarName → Literal

namespace Valuation

/-- Equal literals for every variable. -/
def Agree (θ η : Valuation) : Prop :=
  ∀ name, (θ name == η name) = true

theorem Agree.rfl {θ : Valuation} : θ.Agree θ :=
  fun _ => BEq.rfl

theorem Agree.symm {θ η : Valuation} (h : θ.Agree η) : η.Agree θ :=
  fun name => BEq.symm (h name)

/-- A valuation with one variable changed. -/
def set (θ : Valuation) (name : VarName) (value : Literal) : Valuation :=
  fun other => if other = name then value else θ other

theorem agree_set {θ : Valuation} {name : VarName} {value : Literal}
    (h : (value == θ name) = true) : (θ.set name value).Agree θ := by
  intro other
  by_cases ho : other = name
  · subst ho
    simpa [set] using h
  · simp [set, ho]

end Valuation

/-- The literal that a term stands for. -/
def Term.value (θ : Valuation) : Term → Literal
  | .var name => θ name
  | .lit value => value

/-- The literal that an argument stands for. -/
def Atom.value (θ : Valuation) (a : Atom) : Literal :=
  a.term.value θ

namespace Fact

/-- The literals that the arguments of a fact stand for. -/
def values (f : Fact) (θ : Valuation) : List Literal :=
  f.args.map (Atom.value θ)

/-- The conditions written in a fact hold of the values of their variables. -/
def Admits (f : Fact) (θ : Valuation) : Prop :=
  ∀ v ∈ f.occurrences, ∀ c ∈ v.condition, c.holds (θ v.name) = true

@[simp] theorem length_values (f : Fact) (θ : Valuation) : (f.values θ).length = f.arity := by
  simp [values, arity]

theorem mem_occurrences {f : Fact} {v : Variable} : v ∈ f.occurrences ↔ Atom.var v ∈ f.args := by
  rw [occurrences, List.mem_filterMap]
  constructor
  · rintro ⟨a, ha, hv⟩
    cases a with
    | lit _ => simp [Atom.occurrence?] at hv
    | var w =>
      obtain rfl : w = v := by simpa [Atom.occurrence?] using hv
      exact ha
  · intro h
    exact ⟨_, h, rfl⟩

theorem mem_varNames {f : Fact} {name : VarName} :
    name ∈ f.varNames ↔ ∃ v, Atom.var v ∈ f.args ∧ v.name = name := by
  simp [varNames, mem_occurrences]

theorem mem_varNames_of_mem {f : Fact} {v : Variable} (h : Atom.var v ∈ f.args) :
    v.name ∈ f.varNames :=
  mem_varNames.2 ⟨v, h, rfl⟩

end Fact

private theorem beq_map {α : Type} {f g : α → Literal} {as : List α}
    (h : ∀ a ∈ as, (f a == g a) = true) : (as.map f == as.map g) = true := by
  induction as with
  | nil => rfl
  | cons a as ih =>
    rw [List.forall_mem_cons] at h
    simp [h.1, ih h.2]

namespace Fact

/-- Only the variables of a fact count for its values. -/
theorem values_congr {f : Fact} {θ η : Valuation} (h : ∀ name ∈ f.varNames, θ name = η name) :
    f.values θ = f.values η := by
  refine List.map_congr_left fun a ha => ?_
  cases a with
  | lit _ => rfl
  | var v => exact h v.name (mem_varNames_of_mem ha)

theorem values_beq {f : Fact} {θ η : Valuation}
    (h : ∀ name ∈ f.varNames, (θ name == η name) = true) : (f.values θ == f.values η) = true := by
  refine beq_map fun a ha => ?_
  cases a with
  | lit _ => exact BEq.rfl
  | var v => exact h v.name (mem_varNames_of_mem ha)

theorem values_beq_of_agree {θ η : Valuation} (h : θ.Agree η) (f : Fact) :
    (f.values θ == f.values η) = true :=
  values_beq fun name _ => h name

theorem admits_congr {f : Fact} {θ η : Valuation}
    (h : ∀ name ∈ f.varNames, (θ name == η name) = true) (hf : f.Admits θ) : f.Admits η := by
  intro v hv c hc
  have hname : (θ v.name == η v.name) = true :=
    h v.name (mem_varNames_of_mem (mem_occurrences.1 hv))
  rw [← Condition.holds_congr BEq.rfl hname]
  exact hf v hv c hc

theorem Admits.of_agree {f : Fact} {θ η : Valuation} (hf : f.Admits θ) (h : θ.Agree η) :
    f.Admits η :=
  admits_congr (fun name _ => h name) hf

theorem values_rename (change : VarName → VarName) (f : Fact) (θ : Valuation) :
    (f.rename change).values θ = f.values (θ ∘ change) := by
  simp only [values, rename, List.map_map]
  refine List.map_congr_left fun a _ => ?_
  cases a <;> rfl

theorem occurrences_rename (change : VarName → VarName) (f : Fact) :
    (f.rename change).occurrences =
      f.occurrences.map fun v => { v with name := change v.name } := by
  simp only [occurrences, rename]
  induction f.args with
  | nil => rfl
  | cons a args ih => cases a <;> simp [Atom.rename, Atom.occurrence?, List.filterMap_cons, ih]

theorem varNames_rename (change : VarName → VarName) (f : Fact) :
    (f.rename change).varNames = f.varNames.map change := by
  simp [varNames, occurrences_rename, List.map_map, Function.comp_def]

@[simp] theorem functor_rename (change : VarName → VarName) (f : Fact) :
    (f.rename change).functor = f.functor := rfl

@[simp] theorem arity_rename (change : VarName → VarName) (f : Fact) :
    (f.rename change).arity = f.arity := by
  simp [arity, rename]

theorem rename_id (f : Fact) : f.rename id = f := by
  have hatoms : f.args.map (Atom.rename id) = f.args := by
    refine (List.map_congr_left fun a _ => ?_).trans (List.map_id _)
    cases a <;> rfl
  rw [rename, hatoms]

theorem admits_rename (change : VarName → VarName) (f : Fact) (θ : Valuation) :
    (f.rename change).Admits θ ↔ f.Admits (θ ∘ change) := by
  simp [Admits, occurrences_rename]

@[simp] theorem values_ofLiterals (functor : String) (us : List Literal) (θ : Valuation) :
    (ofLiterals functor us).values θ = us := by
  simp [values, ofLiterals, Function.comp_def, Atom.value, Atom.term, Term.value]

@[simp] theorem occurrences_ofLiterals (functor : String) (us : List Literal) :
    (ofLiterals functor us).occurrences = [] := by
  simp [occurrences, ofLiterals, List.filterMap_eq_nil_iff, Atom.occurrence?]

theorem admits_ofLiterals (functor : String) (us : List Literal) (θ : Valuation) :
    (ofLiterals functor us).Admits θ := by
  simp [Admits]

/-- The literals of a ground fact are its arguments. -/
theorem literals?_eq_some_iff {f : Fact} {us : List Literal} :
    f.literals? = some us ↔ f = ofLiterals f.functor us := by
  obtain ⟨functor, args⟩ := f
  simp only [literals?, ofLiterals, mk.injEq, true_and]
  induction args generalizing us with
  | nil => cases us <;> simp
  | cons a args ih =>
    cases a with
    | var _ => cases us <;> simp [Atom.literal?, List.mapM_cons]
    | lit _ =>
      cases us <;>
        simp [Atom.literal?, List.mapM_cons, Option.bind_eq_some_iff, ih, and_left_comm]

theorem isGround_iff {f : Fact} : f.isGround = true ↔ f.varNames = [] := by
  simp only [isGround, varNames, occurrences, List.all_eq_true, List.map_eq_nil_iff,
    List.filterMap_eq_nil_iff]
  refine forall₂_congr fun a _ => ?_
  cases a <;> simp [Atom.isConstant, Atom.occurrence?]

theorem isGround_iff_literals? {f : Fact} : f.isGround = true ↔ ∃ us, f.literals? = some us := by
  obtain ⟨functor, args⟩ := f
  simp only [isGround, literals?]
  induction args with
  | nil => simp
  | cons a args ih =>
    cases a with
    | var _ => simp [Atom.isConstant, Atom.literal?, List.mapM_cons]
    | lit u =>
      simp only [List.all_cons, Atom.isConstant, Bool.true_and, ih, Atom.literal?, List.mapM_cons]
      cases args.mapM Atom.literal? <;> simp

theorem isGround_ofLiterals (functor : String) (us : List Literal) :
    (ofLiterals functor us).isGround = true :=
  isGround_iff_literals?.2 ⟨us, literals?_eq_some_iff.2 rfl⟩

private theorem isEqv_map_lit (us vs : List Literal) :
    (us.map Atom.lit).isEqv (vs.map Atom.lit) Atom.sameShape = (us == vs) := by
  induction us generalizing vs with
  | nil => cases vs <;> rfl
  | cons u us ih =>
    cases vs with
    | nil => rfl
    | cons v vs => exact congrArg ((u == v) && ·) (ih vs)

/-- Ground facts of one functor are equal if their arguments are. -/
theorem beq_ofLiterals (functor : String) (us vs : List Literal) :
    (ofLiterals functor us == ofLiterals functor vs) = (us == vs) := by
  have hnames : ∀ ws : List Literal, (ofLiterals functor ws).varNames = [] := by
    simp [varNames]
  rw [show ∀ f g : Fact, (f == g) = alikeAll [f] [g] from fun _ _ => rfl, alikeAll, numbers_eq,
    numbers_eq]
  simp only [List.flatMap_cons, List.flatMap_nil, hnames, List.append_nil, BEq.rfl, Bool.and_true,
    List.isEqv, sameShape]
  simpa [ofLiterals] using isEqv_map_lit us vs

end Fact

namespace Bindings

/-- The valuation that gives every variable the value of what it stands for. -/
def under (b : Bindings) (θ : Valuation) : Valuation :=
  fun name => (b.resolve (.var name)).value θ

theorem value_resolve (b : Bindings) (t : Term) (θ : Valuation) :
    (b.resolve t).value θ = t.value (b.under θ) := by
  cases t with
  | var _ => rfl
  | lit _ => rw [resolve_lit]; rfl

theorem value_substituteAtom (b : Bindings) (a : Atom) (θ : Valuation) :
    (b.substituteAtom a).value θ = a.value (b.under θ) := by
  cases a with
  | lit _ => rfl
  | var v =>
    rw [Atom.value, Atom.value, Atom.term, ← value_resolve, substituteAtom]
    split <;> simp_all [Atom.term]

/-- Values after a substitution are the values of what the variables stand for. -/
theorem values_substitute (b : Bindings) (f : Fact) (θ : Valuation) :
    (b.substitute f).values θ = f.values (b.under θ) := by
  simp only [Fact.values, substitute, List.map_map]
  exact List.map_congr_left fun a _ => value_substituteAtom b a θ

theorem under_empty (θ : Valuation) : (∅ : Bindings).under θ = θ := rfl

theorem under_bind (b : Bindings) (name : VarName) (target : Term) (θ : Valuation) :
    (b.bind name target).under θ = b.under (θ.set name (target.value θ)) := by
  funext other
  rw [under, under, resolve_bind]
  cases b.resolve (.var other) with
  | lit _ => rfl
  | var x => by_cases h : x = name <;> simp [Binding.follow, Term.value, Valuation.set, h]

theorem under_agree (b : Bindings) {θ η : Valuation} (h : θ.Agree η) :
    (b.under θ).Agree (b.under η) := by
  intro name
  rw [under, under]
  cases b.resolve (.var name) with
  | lit _ => exact BEq.rfl
  | var x => exact h x

/-- Conditions hold of what the variables stand for if they hold where a literal came in and after
the substitution at the other places. -/
theorem admits_under (b : Bindings) (f : Fact) (θ : Valuation) :
    f.Admits (b.under θ) ↔ b.respects f = true ∧ (b.substitute f).Admits θ := by
  have hplace : ∀ v : Variable,
      (∀ c ∈ v.condition, c.holds (b.under θ v.name) = true) ↔
        b.respectsAtom (.var v) = true ∧
          ∀ w, b.substituteAtom (.var v) = .var w → ∀ c ∈ w.condition, c.holds (θ w.name) = true := by
    intro v
    rw [under]
    simp only [respectsAtom, substituteAtom, Option.all_eq_true]
    cases b.resolve (.var v.name) with
    | lit u => simp [Term.value]
    | var x => simp [Term.value]
  constructor
  · intro h
    have hargs : ∀ v, Atom.var v ∈ f.args → ∀ c ∈ v.condition, c.holds (b.under θ v.name) = true :=
      fun v hv => h v (Fact.mem_occurrences.2 hv)
    constructor
    · rw [respects, List.all_eq_true]
      intro a ha
      cases a with
      | lit _ => rfl
      | var v => exact ((hplace v).1 (hargs v ha)).1
    · intro w hw
      obtain ⟨a, ha, hsub⟩ := List.mem_map.1 (Fact.mem_occurrences.1 hw)
      cases a with
      | lit _ => simp [substituteAtom] at hsub
      | var v => exact ((hplace v).1 (hargs v ha)).2 w hsub
  · rintro ⟨hrespects, hadmits⟩ v hv
    rw [respects, List.all_eq_true] at hrespects
    have ha := Fact.mem_occurrences.1 hv
    refine (hplace v).2 ⟨hrespects _ ha, fun w hw => ?_⟩
    exact hadmits w (Fact.mem_occurrences.2 (List.mem_map.2 ⟨_, ha, hw⟩))

end Bindings

end Horn
