import Horn.Proofs.Unification.MostGeneral

/-!
Which variables clauses and facts have after renaming and unification.

The variables of a clause that is renamed from a number on have the fresh numbers from there up to
the next free one, so a valuation of what was there before and one of the clause go together:
`Clause.exists_valuation`. Unification binds variables to variables and literals of the two facts
only, and it leaves no variable in the one that is not in the other:
`Bindings.mem_varNames_of_unify`.
-/

set_option autoImplicit false
set_option relaxedAutoImplicit false

namespace Horn

/-- A name that a user wrote, or a fresh number below a bound. -/
def VarName.Below (bound : Nat) : VarName → Prop
  | .named _ => True
  | .fresh number => number < bound

theorem VarName.Below.mono {bound other : Nat} {name : VarName} (h : name.Below bound)
    (le : bound ≤ other) : name.Below other := by
  cases name with
  | named _ => trivial
  | fresh number => exact Nat.lt_of_lt_of_le h le

/-! ### Renaming -/

theorem Numbering.mem_foldl_meet {name : VarName} {names : List VarName} {seen : Numbering} :
    name ∈ names.foldl meet seen ↔ name ∈ seen ∨ name ∈ names := by
  induction names generalizing seen with
  | nil => simp
  | cons other rest ih =>
    rw [List.foldl_cons, ih, List.mem_cons]
    by_cases h : other ∈ seen
    · rw [meet, if_pos h]
      constructor
      · exact fun hn => hn.imp_right .inr
      · rintro (hn | rfl | hn)
        · exact .inl hn
        · exact .inl h
        · exact .inr hn
    · rw [meet, if_neg h, List.mem_append, List.mem_singleton, or_assoc]

/-- The names that are numbered are those that were met. -/
theorem Numbering.mem_ofNames {name : VarName} {names : List VarName} :
    name ∈ ofNames names ↔ name ∈ names := by
  simp [ofNames, mem_foldl_meet]

namespace Clause

/-- The variables of a clause, each once. -/
abbrev names (c : Clause) : Numbering :=
  Numbering.ofFacts c.facts

/-- The variables of a fact of a clause are among those of the clause. -/
theorem mem_names {c : Clause} {f : Fact} (hf : f ∈ c.facts) {name : VarName}
    (hname : name ∈ f.varNames) : name ∈ c.names :=
  Numbering.mem_ofNames.2 (List.mem_flatMap.2 ⟨f, hf, hname⟩)

theorem facts_renameApart (c : Clause) (start : Nat) :
    (c.renameApart start).1.facts = c.facts.map (Fact.rename (c.names.fresh start)) := rfl

theorem snd_renameApart (c : Clause) (start : Nat) :
    (c.renameApart start).2 = start + c.names.length := rfl

/-- The variables of a renamed clause have numbers from the given one up to the next free one. -/
theorem mem_varNames_renameApart {c : Clause} {start : Nat} {f : Fact}
    (hf : f ∈ (c.renameApart start).1.facts) {name : VarName} (hname : name ∈ f.varNames) :
    ∃ number, name = .fresh number ∧ start ≤ number ∧ number < (c.renameApart start).2 := by
  rw [facts_renameApart, List.mem_map] at hf
  obtain ⟨g, hg, rfl⟩ := hf
  rw [Fact.varNames_rename, List.mem_map] at hname
  obtain ⟨other, hother, rfl⟩ := hname
  have hlt : c.names.number other < c.names.length := List.idxOf_lt_length_of_mem (mem_names hg hother)
  exact ⟨_, rfl, Nat.le_add_right _ _, by rw [snd_renameApart]; omega⟩

theorem below_renameApart {c : Clause} {start : Nat} {f : Fact}
    (hf : f ∈ (c.renameApart start).1.facts) {name : VarName} (hname : name ∈ f.varNames) :
    name.Below (c.renameApart start).2 := by
  obtain ⟨number, rfl, -, hlt⟩ := mem_varNames_renameApart hf hname
  exact hlt

/-- A valuation of the names below a number and one of a clause go together once the clause is
renamed from that number on. -/
theorem exists_valuation (c : Clause) (start : Nat) (θ η : Valuation) :
    ∃ ζ : Valuation, (∀ name, name.Below start → ζ name = θ name) ∧
      ∀ name ∈ c.names, ζ (c.names.fresh start name) = η name := by
  refine ⟨fun name =>
    match name with
    | .named _ => θ name
    | .fresh number =>
      if start ≤ number then (c.names[number - start]?.map η).getD default else θ name, ?_, ?_⟩
  · intro name hname
    cases name with
    | named _ => rfl
    | fresh number => exact if_neg (Nat.not_le.2 hname)
  · intro name hname
    have hlt : c.names.number name < c.names.length := List.idxOf_lt_length_of_mem hname
    have hget : c.names[c.names.number name]? = some name := by
      rw [List.getElem?_eq_getElem hlt]
      exact congrArg some (List.getElem_idxOf hlt)
    simp [Numbering.fresh, hget]

variable {c : Clause} {start : Nat} {f : Fact} {ζ η : Valuation}

theorem values_rename (h : ∀ name ∈ c.names, ζ (c.names.fresh start name) = η name)
    (hf : f ∈ c.facts) : (f.rename (c.names.fresh start)).values ζ = f.values η := by
  rw [Fact.values_rename]
  exact Fact.values_congr fun name hname => h name (mem_names hf hname)

theorem admits_rename (h : ∀ name ∈ c.names, ζ (c.names.fresh start name) = η name)
    (hf : f ∈ c.facts) (admits : f.Admits η) : (f.rename (c.names.fresh start)).Admits ζ := by
  rw [Fact.admits_rename]
  refine Fact.admits_congr (fun name hname => ?_) admits
  rw [Function.comp_apply, h name (mem_names hf hname)]
  exact BEq.rfl

end Clause

/-! ### Unification -/

theorem Atom.term_eq_var_iff {a : Atom} {name : VarName} :
    a.term = .var name ↔ ∃ v, a = .var v ∧ v.name = name := by
  cases a <;> simp [term]

theorem Atom.term_eq_lit_iff {a : Atom} {value : Literal} : a.term = .lit value ↔ a = .lit value := by
  cases a <;> simp [term]

namespace Bindings

/-- The variables that are bound to are of some kind. -/
def Within (b : Bindings) (P : VarName → Prop) : Prop :=
  ∀ entry ∈ b.entries, ∀ name, entry.target = .var name → P name

variable {P : VarName → Prop}

theorem within_empty : (∅ : Bindings).Within P :=
  fun _ h => absurd h List.not_mem_nil

theorem Within.resolve {b : Bindings} (h : b.Within P) {t : Term}
    (ht : ∀ name, t = .var name → P name) : ∀ name, b.resolve t = .var name → P name := by
  obtain ⟨entries⟩ := b
  induction entries with
  | nil => exact ht
  | cons entry rest ih =>
    intro name hname
    have hrest := ih fun e he => h e (List.mem_cons_of_mem _ he)
    change entry.follow ((⟨rest⟩ : Bindings).resolve t) = .var name at hname
    cases hresolve : (⟨rest⟩ : Bindings).resolve t with
    | lit _ => simp [hresolve, Binding.follow] at hname
    | var x =>
      rw [hresolve, Binding.follow] at hname
      split at hname
      · exact h entry List.mem_cons_self name hname
      · obtain rfl : x = name := by simpa using hname
        exact hrest x hresolve

/-- The variables after a substitution are what those before it stand for. -/
theorem mem_varNames_substitute {b : Bindings} {f : Fact} {name : VarName} :
    name ∈ (b.substitute f).varNames ↔ ∃ other ∈ f.varNames, b.resolve (.var other) = .var name := by
  rw [Fact.mem_varNames]
  constructor
  · rintro ⟨w, hw, rfl⟩
    obtain ⟨a, ha, hsub⟩ := List.mem_map.1 hw
    cases a with
    | lit _ => simp [substituteAtom] at hsub
    | var v =>
      refine ⟨v.name, Fact.mem_varNames_of_mem ha, ?_⟩
      rw [substituteAtom] at hsub
      split at hsub
      · rename_i x hresolve
        obtain rfl := Atom.var.inj hsub
        exact hresolve
      · simp at hsub
  · rintro ⟨other, hother, hresolve⟩
    obtain ⟨v, hv, rfl⟩ := Fact.mem_varNames.1 hother
    refine ⟨{ v with name }, List.mem_map.2 ⟨_, hv, ?_⟩, rfl⟩
    rw [substituteAtom, hresolve]

/-- A substitution brings in no variables of another kind. -/
theorem Within.substitute {b : Bindings} (h : b.Within P) {f : Fact}
    (hf : ∀ name ∈ f.varNames, P name) : ∀ name ∈ (b.substitute f).varNames, P name := by
  intro name hname
  obtain ⟨other, hother, hresolve⟩ := mem_varNames_substitute.1 hname
  refine h.resolve (t := .var other) ?_ name hresolve
  rintro _ ⟨⟩
  exact hf other hother

/-- Variables are bound to what the right side may stand for. -/
theorem Unifies.within {b b' : Bindings} {left right : Term} (step : b.Unifies left right b')
    (h : b.Within P) (hright : ∀ name, right = .var name → P name) : b'.Within P := by
  cases step with
  | literals _ _ _ => exact h
  | same _ _ => exact h
  | left _ _ => exact List.forall_mem_cons.2 ⟨h.resolve hright, h⟩
  | right _ _ => exact List.forall_mem_cons.2 ⟨nofun, h⟩

/-- Variables are bound to variables of the goal only. -/
theorem within_of_unify {head goal : Fact} {b : Bindings} (hgoal : ∀ name ∈ goal.varNames, P name)
    (hb : unify head goal = some b) : b.Within P := by
  obtain ⟨-, hargs, -⟩ := unify_eq_some_iff.1 hb
  refine keeps_of_unifyArgs (·.Within P) hargs within_empty ?_
  intro _ _ _ right _ hmem step h
  refine step.within h fun name hname => ?_
  obtain ⟨v, rfl, rfl⟩ := Atom.term_eq_var_iff.1 hname
  exact hgoal _ (Fact.mem_varNames_of_mem hmem)

/-- The literals that variables are bound to are of some kind. -/
def Yielding (b : Bindings) (L : Literal → Prop) : Prop :=
  ∀ entry ∈ b.entries, ∀ value, entry.target = .lit value → L value

variable {L : Literal → Prop}

private theorem yielding_empty : (∅ : Bindings).Yielding L :=
  fun _ h => absurd h List.not_mem_nil

private theorem Yielding.resolve {b : Bindings} (h : b.Yielding L) {t : Term}
    (ht : ∀ value, t = .lit value → L value) : ∀ value, b.resolve t = .lit value → L value := by
  obtain ⟨entries⟩ := b
  induction entries with
  | nil => exact ht
  | cons entry rest ih =>
    intro value hvalue
    have hrest := ih fun e he => h e (List.mem_cons_of_mem _ he)
    change entry.follow ((⟨rest⟩ : Bindings).resolve t) = .lit value at hvalue
    cases hresolve : (⟨rest⟩ : Bindings).resolve t with
    | lit other =>
      obtain rfl : other = value := by simpa [hresolve, Binding.follow] using hvalue
      exact hrest other hresolve
    | var x =>
      rw [hresolve, Binding.follow] at hvalue
      split at hvalue
      · exact h entry List.mem_cons_self value hvalue
      · simp at hvalue

/-- A substitution brings in no literals of another kind. -/
theorem Yielding.substitute {b : Bindings} (h : b.Yielding L) {f : Fact}
    (hf : ∀ value, Atom.lit value ∈ f.args → L value) :
    ∀ value, Atom.lit value ∈ (b.substitute f).args → L value := by
  intro value hvalue
  obtain ⟨a, ha, hsub⟩ := List.mem_map.1 hvalue
  cases a with
  | lit other =>
    obtain rfl : other = value := by simpa [substituteAtom] using hsub
    exact hf other ha
  | var v =>
    rw [substituteAtom] at hsub
    split at hsub
    · simp at hsub
    · rename_i other hresolve
      obtain rfl := Atom.lit.inj hsub
      exact h.resolve (by simp) other hresolve

private theorem Unifies.yielding {b b' : Bindings} {left right : Term} (step : b.Unifies left right b')
    (h : b.Yielding L) (hleft : ∀ value, left = .lit value → L value)
    (hright : ∀ value, right = .lit value → L value) : b'.Yielding L := by
  cases step with
  | literals _ _ _ => exact h
  | same _ _ => exact h
  | left _ _ => exact List.forall_mem_cons.2 ⟨h.resolve hright, h⟩
  | @right y u hroot _ =>
    refine List.forall_mem_cons.2 ⟨?_, h⟩
    rintro _ ⟨⟩
    exact h.resolve hleft u hroot

/-- Variables are bound to literals of the two facts only. -/
theorem yielding_of_unify {head goal : Fact} {b : Bindings}
    (hhead : ∀ value, Atom.lit value ∈ head.args → L value)
    (hgoal : ∀ value, Atom.lit value ∈ goal.args → L value) (hb : unify head goal = some b) :
    b.Yielding L := by
  obtain ⟨-, hargs, -⟩ := unify_eq_some_iff.1 hb
  refine keeps_of_unifyArgs (·.Yielding L) hargs yielding_empty ?_
  intro _ _ left right hleft hright step h
  refine step.yielding h (fun value hvalue => hhead value ?_) (fun value hvalue => hgoal value ?_)
  · rwa [← Atom.term_eq_lit_iff.1 hvalue]
  · rwa [← Atom.term_eq_lit_iff.1 hvalue]

private theorem beq_of_values_beq {f : Fact} {θ η : Valuation}
    (h : (f.values θ == f.values η) = true) {name : VarName} (hname : name ∈ f.varNames) :
    (θ name == η name) = true := by
  obtain ⟨v, hv, rfl⟩ := Fact.mem_varNames.1 hname
  obtain ⟨functor, args⟩ := f
  change (args.map (Atom.value θ) == args.map (Atom.value η)) = true at h
  change Atom.var v ∈ args at hv
  clear hname
  induction args with
  | nil => exact absurd hv List.not_mem_nil
  | cons a args ih =>
    simp only [List.map_cons, List.cons_beq_cons, Bool.and_eq_true] at h
    rcases List.mem_cons.1 hv with rfl | hv
    · exact h.1
    · exact ih h.2 hv

/-- Once two facts are unified, the one has no variable that the other has not. -/
theorem mem_varNames_of_unify {head goal : Fact} {b : Bindings} (hb : unify head goal = some b)
    {name : VarName} (hname : name ∈ (b.substitute goal).varNames) :
    name ∈ (b.substitute head).varNames := by
  refine Decidable.byContradiction fun habsent => ?_
  -- Values that differ at the variable only make no difference to the head, so to the goal either.
  let θ : Valuation := fun _ => .integer 0
  let η : Valuation := θ.set name (.integer 1)
  have hhead : (b.substitute head).values θ = (b.substitute head).values η := by
    refine Fact.values_congr fun other hother => ?_
    have hne : other ≠ name := by
      rintro rfl
      exact habsent hother
    simp [η, Valuation.set, hne]
  have hθ := values_eq_of_unify hb θ
  have hη := values_eq_of_unify hb η
  simp only [← values_substitute] at hθ hη
  rw [hhead] at hθ
  have hgoal := beq_of_values_beq (BEq.trans (BEq.symm hθ) hη) hname
  exact absurd hgoal (by simp [θ, η, Valuation.set]; decide)

end Bindings

end Horn
