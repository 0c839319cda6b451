import Mathlib.Data.List.Forall2
import Horn.Proofs.Valuation
import Horn.Proofs.Unification.Demands

/-!
Unification in lockstep.

A `Correspondence` pairs off variable names one to one and relates literals that are equal. Where
facts correspond place by place, unification succeeds on both sides or on neither, and the bindings
it finds correspond, as do the facts in which they are substituted: `Correspondence.unify`. With
identity of literals this says that names do not matter, with equality of literals that the two zeros
do not matter either.
-/

set_option autoImplicit false
set_option relaxedAutoImplicit false

namespace Horn

/-- A one-to-one relation between variable names, and a relation between literals, that of equality
at the most. -/
structure Correspondence where
  names : VarName → VarName → Prop
  literals : Literal → Literal → Prop
  functional : ∀ {x y z}, names x y → names x z → y = z
  injective : ∀ {x y z}, names x z → names y z → x = y
  identical : ∀ u, literals u u
  equal : ∀ {u v}, literals u v → (u == v) = true

namespace Correspondence

/-- The same operator, and operands that correspond. -/
structure OfCondition (m : Correspondence) (c d : Condition) : Prop where
  operator : c.operator = d.operator
  operand : m.literals c.operand d.operand

/-- Variables or literals that correspond. -/
inductive OfTerm (m : Correspondence) : Term → Term → Prop
  | var {x y : VarName} (names : m.names x y) : OfTerm m (.var x) (.var y)
  | lit {u v : Literal} (literals : m.literals u v) : OfTerm m (.lit u) (.lit v)

/-- Arguments that correspond with their conditions. -/
inductive OfAtom (m : Correspondence) : Atom → Atom → Prop
  | var {v w : Variable} (names : m.names v.name w.name)
      (condition : Option.Rel m.OfCondition v.condition w.condition) : OfAtom m (.var v) (.var w)
  | lit {u v : Literal} (literals : m.literals u v) : OfAtom m (.lit u) (.lit v)

/-- The same functor, and arguments that correspond. -/
structure OfFact (m : Correspondence) (f g : Fact) : Prop where
  functor : f.functor = g.functor
  args : List.Forall₂ m.OfAtom f.args g.args

/-- Bindings of variables that correspond to terms that correspond. -/
structure OfBinding (m : Correspondence) (a b : Binding) : Prop where
  name : m.names a.name b.name
  target : m.OfTerm a.target b.target

/-- Bindings that correspond one by one. -/
def OfBindings (m : Correspondence) (b b' : Bindings) : Prop :=
  List.Forall₂ m.OfBinding b.entries b'.entries

variable {m : Correspondence}

theorem beq_congr {u u' v v' : Literal} (hu : m.literals u u') (hv : m.literals v v') :
    (u == v) = (u' == v') := by
  rw [Bool.eq_iff_iff]
  have hu := m.equal hu
  have hv := m.equal hv
  constructor
  · exact fun h => BEq.trans (BEq.symm hu) (BEq.trans h hv)
  · exact fun h => BEq.trans hu (BEq.trans h (BEq.symm hv))

/-- Lists of literals that correspond are equal. -/
theorem beq_of_forall₂ {us vs : List Literal} (h : List.Forall₂ m.literals us vs) :
    (us == vs) = true := by
  induction h with
  | nil => rfl
  | cons first _ ih => rw [List.cons_beq_cons, m.equal first, ih, Bool.true_and]

theorem OfCondition.holds_eq {c d : Condition} (h : m.OfCondition c d) {u v : Literal}
    (literals : m.literals u v) : c.holds u = d.holds v :=
  Condition.holds_congr (Condition.beq_iff.2 ⟨h.operator, m.equal h.operand⟩) (m.equal literals)

theorem OfAtom.term {a b : Atom} (h : m.OfAtom a b) : m.OfTerm a.term b.term := by
  cases h with
  | var names _ => exact .var names
  | lit literals => exact .lit literals

theorem OfFact.arity {f g : Fact} (h : m.OfFact f g) : f.arity = g.arity :=
  h.args.length_eq

theorem OfFact.key {f g : Fact} (h : m.OfFact f g) : f.key = g.key := by
  rw [Fact.key, Fact.key, h.functor, h.arity]

/-! ### Bindings -/

theorem names_eq_iff {x x' y y' : VarName} (hx : m.names x x') (hy : m.names y y') :
    x = y ↔ x' = y' := by
  constructor
  · rintro rfl
    exact m.functional hx hy
  · rintro rfl
    exact m.injective hx hy

private theorem ofTerm_follow {a b : Binding} (h : m.OfBinding a b) {t t' : Term}
    (ht : m.OfTerm t t') : m.OfTerm (a.follow t) (b.follow t') := by
  cases ht with
  | lit literals => exact .lit literals
  | @var x y names =>
    rw [Binding.follow, Binding.follow]
    by_cases hx : x = a.name
    · rw [if_pos hx, if_pos ((names_eq_iff names h.name).1 hx)]
      exact h.target
    · rw [if_neg hx, if_neg fun hy => hx ((names_eq_iff names h.name).2 hy)]
      exact .var names

theorem OfBindings.resolve {b b' : Bindings} (h : m.OfBindings b b') {t t' : Term}
    (ht : m.OfTerm t t') : m.OfTerm (b.resolve t) (b'.resolve t') := by
  obtain ⟨entries⟩ := b
  obtain ⟨entries'⟩ := b'
  change List.Forall₂ m.OfBinding entries entries' at h
  change m.OfTerm (entries.foldr Binding.follow t) (entries'.foldr Binding.follow t')
  induction h with
  | nil => exact ht
  | cons first _ ih => exact ofTerm_follow first ih

theorem OfBindings.respectsAtom {b b' : Bindings} (h : m.OfBindings b b') {a a' : Atom}
    (ha : m.OfAtom a a') : b.respectsAtom a = b'.respectsAtom a' := by
  cases ha with
  | lit _ => rfl
  | @var v w names conditions =>
    rw [Bindings.respectsAtom, Bindings.respectsAtom]
    have hresolve := h.resolve (.var names)
    generalize b.resolve (.var v.name) = t at hresolve
    generalize b'.resolve (.var w.name) = t' at hresolve
    generalize v.condition = condition at conditions
    generalize w.condition = condition' at conditions
    cases conditions with
    | none => rfl
    | some hcondition =>
      cases hresolve with
      | var _ => rfl
      | lit literals => exact hcondition.holds_eq literals

theorem OfBindings.substituteAtom {b b' : Bindings} (h : m.OfBindings b b') {a a' : Atom}
    (ha : m.OfAtom a a') : m.OfAtom (b.substituteAtom a) (b'.substituteAtom a') := by
  cases ha with
  | lit literals => exact .lit literals
  | @var v w names condition =>
    rw [Bindings.substituteAtom, Bindings.substituteAtom]
    have hresolve := h.resolve (.var names)
    generalize b.resolve (.var v.name) = t at hresolve
    generalize b'.resolve (.var w.name) = t' at hresolve
    cases hresolve with
    | var names => exact .var names condition
    | lit literals => exact .lit literals

theorem OfBindings.respects {b b' : Bindings} (h : m.OfBindings b b') {f g : Fact}
    (hf : m.OfFact f g) : b.respects f = b'.respects g := by
  obtain ⟨_, args⟩ := f
  obtain ⟨_, args'⟩ := g
  change args.all b.respectsAtom = args'.all b'.respectsAtom
  have hargs : List.Forall₂ m.OfAtom args args' := hf.args
  induction hargs with
  | nil => rfl
  | cons first _ ih =>
    rw [List.all_cons, List.all_cons, h.respectsAtom first, ih ⟨hf.functor, ‹_›⟩]

theorem OfBindings.substitute {b b' : Bindings} (h : m.OfBindings b b') {f g : Fact}
    (hf : m.OfFact f g) : m.OfFact (b.substitute f) (b'.substitute g) where
  functor := hf.functor
  args := by
    rw [Bindings.substitute, Bindings.substitute, List.forall₂_map_left_iff,
      List.forall₂_map_right_iff]
    exact hf.args.imp fun _ _ ha => h.substituteAtom ha

/-! ### Unification -/

private theorem unifyTerms {b b' : Bindings} (h : m.OfBindings b b') {left left' right right' : Term}
    (hleft : m.OfTerm left left') (hright : m.OfTerm right right') :
    Option.Rel m.OfBindings (b.unifyTerms left right) (b'.unifyTerms left' right') := by
  have hl := h.resolve hleft
  have hr := h.resolve hright
  rw [Bindings.unifyTerms, Bindings.unifyTerms]
  generalize b.resolve left = l at hl
  generalize b'.resolve left' = l' at hl
  generalize b.resolve right = r at hr
  generalize b'.resolve right' = r' at hr
  cases hl with
  | lit hu =>
    cases hr with
    | lit hv =>
      simp only [beq_congr hu hv]
      split
      · exact .some h
      · exact .none
    | var hy => exact .some (.cons ⟨hy, .lit hu⟩ h)
  | var hx =>
    cases hr with
    | lit hv => exact .some (.cons ⟨hx, .lit hv⟩ h)
    | var hy =>
      refine .some ?_
      simp only [names_eq_iff hx hy]
      split
      · exact h
      · exact .cons ⟨hx, .var hy⟩ h

private theorem unifyArgs {lefts lefts' rights rights' : List Atom} {b b' : Bindings}
    (h : m.OfBindings b b') (hleft : List.Forall₂ m.OfAtom lefts lefts')
    (hright : List.Forall₂ m.OfAtom rights rights') :
    Option.Rel m.OfBindings (b.unifyArgs lefts rights) (b'.unifyArgs lefts' rights') := by
  induction hleft generalizing b b' rights rights' with
  | nil => exact .some h
  | cons hfirst _ ih =>
    cases hright with
    | nil => exact .some h
    | cons hsecond hrights =>
      rw [Bindings.unifyArgs, Bindings.unifyArgs]
      have hterms := unifyTerms h hfirst.term hsecond.term
      generalize b.unifyTerms _ _ = found at hterms
      generalize b'.unifyTerms _ _ = found' at hterms
      cases hterms with
      | none => exact .none
      | some hb => exact ih hb hrights

/-- Facts that correspond unify with facts that correspond alike. -/
theorem unify {head head' goal goal' : Fact} (hhead : m.OfFact head head')
    (hgoal : m.OfFact goal goal') :
    Option.Rel m.OfBindings (Horn.unify head goal) (Horn.unify head' goal') := by
  rw [unify_eq_filter, unify_eq_filter, hhead.functor, hgoal.functor, hhead.arity, hgoal.arity]
  split
  · have hempty : m.OfBindings ∅ ∅ := .nil
    have hargs := unifyArgs hempty hhead.args hgoal.args
    generalize (∅ : Bindings).unifyArgs head.args goal.args = found at hargs
    generalize (∅ : Bindings).unifyArgs head'.args goal'.args = found' at hargs
    cases hargs with
    | none => exact .none
    | some hb =>
      rw [Option.filter_some, Option.filter_some, hb.respects hhead, hb.respects hgoal]
      split
      · exact .some hb
      · exact .none
  · exact .none

/-! ### Values -/

/-- Every valuation goes over to the names on the other side. -/
theorem exists_valuation (m : Correspondence) (θ : Valuation) :
    ∃ η : Valuation, ∀ x y, m.names x y → η y = θ x := by
  classical
  refine ⟨fun y => if h : ∃ x, m.names x y then θ h.choose else default, fun x y hxy => ?_⟩
  have h : ∃ x, m.names x y := ⟨x, hxy⟩
  simp only [dif_pos h, m.injective h.choose_spec hxy]

/-- Every variable on the right stands where there is one on the left. -/
theorem OfFact.exists_var {f g : Fact} (h : m.OfFact f g) {w : Variable} (hw : Atom.var w ∈ g.args) :
    ∃ v, Atom.var v ∈ f.args ∧ m.names v.name w.name ∧
      Option.Rel m.OfCondition v.condition w.condition := by
  obtain ⟨_, args⟩ := f
  obtain ⟨_, args'⟩ := g
  have hargs : List.Forall₂ m.OfAtom args args' := h.args
  clear h
  induction hargs with
  | nil => exact absurd hw List.not_mem_nil
  | cons first _ ih =>
    rcases List.mem_cons.1 hw with rfl | hw
    · cases first with
      | var names condition => exact ⟨_, List.mem_cons_self, names, condition⟩
    · obtain ⟨v, hv, hrest⟩ := ih hw
      exact ⟨v, List.mem_cons_of_mem _ hv, hrest⟩

theorem OfAtom.value {a a' : Atom} (h : m.OfAtom a a') {θ η : Valuation}
    (hη : ∀ x y, m.names x y → η y = θ x) : (a.value θ == a'.value η) = true := by
  cases h with
  | lit literals => exact m.equal literals
  | @var v w names _ =>
    change (θ v.name == η w.name) = true
    rw [hη _ _ names]
    exact BEq.rfl

/-- Facts that correspond come to equal values under valuations that correspond. -/
theorem OfFact.values {f g : Fact} (h : m.OfFact f g) {θ η : Valuation}
    (hη : ∀ x y, m.names x y → η y = θ x) : (f.values θ == g.values η) = true := by
  obtain ⟨_, args⟩ := f
  obtain ⟨_, args'⟩ := g
  change (args.map (Atom.value θ) == args'.map (Atom.value η)) = true
  have hargs : List.Forall₂ m.OfAtom args args' := h.args
  clear h
  induction hargs with
  | nil => rfl
  | cons first _ ih => simp [first.value hη, ih]

/-- Facts that correspond have conditions that hold alike under valuations that correspond. -/
theorem OfFact.admits {f g : Fact} (h : m.OfFact f g) {θ η : Valuation}
    (hη : ∀ x y, m.names x y → η y = θ x) (hf : f.Admits θ) : g.Admits η := by
  intro w hw d hd
  obtain ⟨v, hv, names, conditions⟩ := h.exists_var (Fact.mem_occurrences.1 hw)
  rw [Option.mem_def] at hd
  rw [hd] at conditions
  cases hcondition : v.condition with
  | none => simp [hcondition] at conditions
  | some c =>
    rw [hcondition] at conditions
    cases conditions with
    | some hcd =>
      rw [← hcd.holds_eq (m.identical (η w.name)), hη _ _ names]
      exact hf v (Fact.mem_occurrences.2 hv) c hcondition

end Correspondence

end Horn
