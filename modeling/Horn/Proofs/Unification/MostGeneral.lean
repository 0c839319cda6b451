import Horn.Proofs.Valuation
import Horn.Proofs.Unification.Demands

/-!
Unification finds a unifier that is as general as can be.

`Bindings.values_eq_of_unify`: under the bindings both facts have equal values, whatever is put for
the variables that are left. `Bindings.exists_unify`: if some valuation gives both facts equal
values and satisfies their conditions, they unify. `Bindings.under_agree_of_unify`: every such
valuation factors through the bindings.
-/

set_option autoImplicit false
set_option relaxedAutoImplicit false

namespace Horn.Bindings

/-- What making two terms equal adds narrows the valuations down to those that give both equal values. -/
private theorem Unifies.under {b b' : Bindings} {left right : Term} (step : b.Unifies left right b')
    (θ : Valuation) :
    ∃ η, b'.under θ = b.under η ∧
      (left.value (b'.under θ) == right.value (b'.under θ)) = true := by
  have hroots : ∀ η : Valuation, ((b.resolve left).value η == (b.resolve right).value η) = true →
      (left.value (b.under η) == right.value (b.under η)) = true := by
    intro η hη
    rwa [value_resolve, value_resolve] at hη
  cases step with
  | literals hleft hright hequal =>
    refine ⟨θ, rfl, hroots θ ?_⟩
    rw [hleft, hright]
    exact hequal
  | same hleft hright =>
    refine ⟨θ, rfl, hroots θ ?_⟩
    rw [hleft, hright]
    exact BEq.rfl
  | @left x hleft ne =>
    refine ⟨θ.set x ((b.resolve right).value θ), under_bind b x _ θ, ?_⟩
    rw [under_bind]
    refine hroots _ ?_
    rw [hleft]
    cases hright : b.resolve right with
    | lit v => simp [Term.value, Valuation.set]
    | var y =>
      have hne : y ≠ x := fun heq => ne (heq ▸ hright)
      simp [Term.value, Valuation.set, hne]
  | @right y u hleft hright =>
    refine ⟨θ.set y u, under_bind b y (.lit u) θ, ?_⟩
    rw [under_bind]
    refine hroots _ ?_
    rw [hleft, hright]
    simp [Term.value, Valuation.set]

private theorem under_of_unifyArgs {lefts rights : List Atom} {b b' : Bindings}
    (h : b.unifyArgs lefts rights = some b') (hlen : lefts.length = rights.length)
    (θ : Valuation) :
    ∃ η, b'.under θ = b.under η ∧
      (lefts.map (Atom.value (b'.under θ)) == rights.map (Atom.value (b'.under θ))) = true := by
  induction lefts generalizing rights b with
  | nil =>
    cases rights with
    | cons _ _ => simp at hlen
    | nil =>
      obtain rfl : b = b' := by simpa [unifyArgs] using h
      exact ⟨θ, rfl, rfl⟩
  | cons left lefts ih =>
    cases rights with
    | nil => simp at hlen
    | cons right rights =>
      rw [unifyArgs, Option.bind_eq_some_iff] at h
      obtain ⟨b₁, hfirst, hrest⟩ := h
      obtain ⟨η₁, hη₁, hvalues⟩ := ih hrest (by simpa using hlen)
      obtain ⟨η, hη, hvalue⟩ := (unifies_of_unifyTerms hfirst).under η₁
      rw [← hη₁] at hη hvalue
      refine ⟨η, hη, ?_⟩
      simp only [List.map_cons, List.cons_beq_cons, Bool.and_eq_true]
      exact ⟨hvalue, hvalues⟩

/-- A valuation that makes two terms equal and factors through bindings so far still factors through
them once the terms are unified. -/
private theorem exists_unifyTerms {b : Bindings} {left right : Term} {θ : Valuation}
    (hb : (b.under θ).Agree θ) (h : (left.value θ == right.value θ) = true) :
    ∃ b', b.unifyTerms left right = some b' ∧ (b'.under θ).Agree θ := by
  have hagree : ∀ t : Term, ((b.resolve t).value θ == t.value θ) = true := by
    intro t
    rw [value_resolve]
    cases t with
    | var name => exact hb name
    | lit _ => exact BEq.rfl
  have hvalues : ((b.resolve left).value θ == (b.resolve right).value θ) = true :=
    BEq.trans (hagree left) (BEq.trans h (BEq.symm (hagree right)))
  have hbind : ∀ (name : VarName) (target : Term), (target.value θ == θ name) = true →
      ((b.bind name target).under θ).Agree θ := by
    intro name target ht other
    rw [under_bind]
    exact BEq.trans (under_agree b (Valuation.agree_set ht) other) (hb other)
  rw [unifyTerms]
  cases hl : b.resolve left with
  | lit u =>
    cases hr : b.resolve right with
    | lit v =>
      rw [hl, hr] at hvalues
      exact ⟨b, if_pos hvalues, hb⟩
    | var y =>
      rw [hl, hr] at hvalues
      exact ⟨_, rfl, hbind y (.lit u) hvalues⟩
  | var x =>
    cases hr : b.resolve right with
    | lit v =>
      rw [hl, hr] at hvalues
      exact ⟨_, rfl, hbind x (.lit v) (BEq.symm hvalues)⟩
    | var y =>
      rw [hl, hr] at hvalues
      by_cases hxy : x = y
      · exact ⟨b, by simp only [if_pos hxy], hb⟩
      · exact ⟨_, by simp only [if_neg hxy], hbind x (.var y) (BEq.symm hvalues)⟩

private theorem exists_unifyArgs {lefts rights : List Atom} {b : Bindings} {θ : Valuation}
    (hb : (b.under θ).Agree θ)
    (h : (lefts.map (Atom.value θ) == rights.map (Atom.value θ)) = true) :
    ∃ b', b.unifyArgs lefts rights = some b' ∧ (b'.under θ).Agree θ := by
  induction lefts generalizing rights b with
  | nil => exact ⟨b, by rw [unifyArgs]; simp, hb⟩
  | cons left lefts ih =>
    cases rights with
    | nil => exact ⟨b, by rw [unifyArgs]; simp, hb⟩
    | cons right rights =>
      simp only [List.map_cons, List.cons_beq_cons, Bool.and_eq_true] at h
      have hplace : (left.term.value θ == right.term.value θ) = true := h.1
      obtain ⟨b₁, hfirst, hb₁⟩ := exists_unifyTerms hb hplace
      obtain ⟨b', hrest, hb'⟩ := ih hb₁ h.2
      exact ⟨b', by rw [unifyArgs, hfirst, Option.bind_some, hrest], hb'⟩

/-- What has to be the case for two facts to unify. -/
theorem unify_eq_some_iff {head goal : Fact} {b : Bindings} :
    unify head goal = some b ↔
      (head.functor = goal.functor ∧ head.arity = goal.arity) ∧
        (∅ : Bindings).unifyArgs head.args goal.args = some b ∧
        b.respects head = true ∧ b.respects goal = true := by
  rw [unify_eq_filter]
  by_cases h : head.functor = goal.functor ∧ head.arity = goal.arity
  · rw [if_pos h, Option.filter_eq_some_iff, Bool.and_eq_true]
    simp only [h, true_and, and_true]
  · rw [if_neg h]
    exact ⟨fun hn => by simp at hn, fun hn => absurd hn.1 h⟩

/-- Where argument lists unify, the bindings give the facts equal values. -/
theorem values_eq_of_unifyArgs {head goal : Fact} {b : Bindings}
    (h : (∅ : Bindings).unifyArgs head.args goal.args = some b) (harity : head.arity = goal.arity)
    (θ : Valuation) : (head.values (b.under θ) == goal.values (b.under θ)) = true := by
  obtain ⟨_, _, hvalues⟩ := under_of_unifyArgs h harity θ
  exact hvalues

/-- If some valuation gives two facts equal values, their argument lists unify, and it factors through
the bindings. -/
theorem exists_unifyArgs_of_values {head goal : Fact} {θ : Valuation}
    (hvalues : (head.values θ == goal.values θ) = true) :
    ∃ b, (∅ : Bindings).unifyArgs head.args goal.args = some b ∧ (b.under θ).Agree θ := by
  have hempty : ((∅ : Bindings).under θ).Agree θ := by
    rw [under_empty]
    exact .rfl
  exact exists_unifyArgs hempty hvalues

theorem under_agree_of_unifyArgs {head goal : Fact} {b : Bindings}
    (h : (∅ : Bindings).unifyArgs head.args goal.args = some b) {θ : Valuation}
    (hvalues : (head.values θ == goal.values θ) = true) : (b.under θ).Agree θ := by
  obtain ⟨b', hb', hagree⟩ := exists_unifyArgs_of_values hvalues
  obtain rfl : b = b' := Option.some.inj (h.symm.trans hb')
  exact hagree

/-- The bindings that unify two facts give them equal values. -/
theorem values_eq_of_unify {head goal : Fact} {b : Bindings} (h : unify head goal = some b)
    (θ : Valuation) : (head.values (b.under θ) == goal.values (b.under θ)) = true := by
  obtain ⟨⟨_, harity⟩, hargs, _⟩ := unify_eq_some_iff.1 h
  exact values_eq_of_unifyArgs hargs harity θ

/-- A valuation that gives two facts equal values factors through the bindings that unify them. -/
theorem under_agree_of_unify {head goal : Fact} {b : Bindings} (h : unify head goal = some b)
    {θ : Valuation} (hθ : (head.values θ == goal.values θ) = true) : (b.under θ).Agree θ := by
  obtain ⟨_, hargs, _⟩ := unify_eq_some_iff.1 h
  exact under_agree_of_unifyArgs hargs hθ

/-- Bindings respect conditions that hold under a valuation which factors through them. -/
theorem respects_of_admits {b : Bindings} {f : Fact} {θ : Valuation}
    (hb : (b.under θ).Agree θ) (hf : f.Admits θ) : b.respects f = true :=
  ((admits_under b f θ).1 (hf.of_agree hb.symm)).1

/-- After the substitution those conditions still hold. -/
theorem admits_substitute_of_agree {b : Bindings} {f : Fact} {θ : Valuation}
    (hb : (b.under θ).Agree θ) (hf : f.Admits θ) : (b.substitute f).Admits θ :=
  ((admits_under b f θ).1 (hf.of_agree hb.symm)).2

/-- A substitution does not change values under a valuation that factors through it. -/
theorem values_substitute_of_agree {b : Bindings} {θ : Valuation} (hb : (b.under θ).Agree θ)
    (f : Fact) : ((b.substitute f).values θ == f.values θ) = true := by
  rw [values_substitute]
  exact Fact.values_beq_of_agree hb f

/-- Facts unify if some valuation gives them equal values and satisfies their conditions. -/
theorem exists_unify {head goal : Fact} {θ : Valuation} (hfunctor : head.functor = goal.functor)
    (hvalues : (head.values θ == goal.values θ) = true) (hhead : head.Admits θ)
    (hgoal : goal.Admits θ) : ∃ b, unify head goal = some b ∧ (b.under θ).Agree θ := by
  have harity : head.arity = goal.arity := by
    simpa using List.length_eq_of_beq hvalues
  obtain ⟨b, hargs, hagree⟩ := exists_unifyArgs_of_values hvalues
  refine ⟨b, unify_eq_some_iff.2 ⟨⟨hfunctor, harity⟩, hargs, ?_, ?_⟩, hagree⟩
  · exact respects_of_admits hagree hhead
  · exact respects_of_admits hagree hgoal

end Horn.Bindings
