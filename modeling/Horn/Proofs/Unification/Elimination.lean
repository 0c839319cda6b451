import Horn.Proofs.Unification.Chains
import Horn.Proofs.Unification.Variants

/-!
Unification eliminates the variables of the head.

Of two variables that face each other the one that the left side stands for is bound to the one that the
right side stands for. The left side may stand for a variable of the goal already, but the right side never
stands for one of the head: variables are bound to literals and variables of the goal only. So each place
leaves the variable of the head that stands there bound, and what it stands for belongs to the goal.
-/

set_option autoImplicit false
set_option relaxedAutoImplicit false

namespace Horn

namespace Bindings

variable {b b' : Bindings} {left right : Term} {name : VarName} {P : VarName → Prop}

theorem ne_none_of_bind {target : Term} {other : VarName} (bound : b.next? (.var name) ≠ none) :
    (b.bind other target).next? (.var name) ≠ none := by
  by_cases hname : name = other
  · rw [hname, next?_bind_self]
    exact Option.some_ne_none _
  · rwa [next?_bind_of_ne fun heq => hname (Term.var.inj heq)]

/-- What is bound stays bound. -/
theorem Unifies.bound (step : b.Unifies left right b') (bound : b.next? (.var name) ≠ none) :
    b'.next? (.var name) ≠ none := by
  cases step with
  | literals _ _ _ => exact bound
  | same _ _ => exact bound
  | left _ _ => exact ne_none_of_bind bound
  | right _ _ => exact ne_none_of_bind bound

/-- A variable on the left that the right side cannot stand for is bound. -/
theorem Unifies.left_bound (step : b.Unifies (.var name) right b') (within : b.Within P)
    (hright : ∀ x, right = .var x → P x) (hname : ¬ P name) : b'.next? (.var name) ≠ none := by
  by_cases hbound : b.next? (.var name) = none
  · have hroot : b.resolve (.var name) = .var name := resolve_of_next? hbound
    cases step with
    | literals hleft _ _ =>
      rw [hroot] at hleft
      cases hleft
    | same hleft hsame =>
      rw [hroot] at hleft
      cases hleft
      exact absurd (within.resolve hright _ hsame) hname
    | left hleft _ =>
      rw [hroot] at hleft
      cases hleft
      rw [next?_bind_self]
      exact Option.some_ne_none _
    | right hleft _ =>
      rw [hroot] at hleft
      cases hleft
  · exact step.bound hbound

/-- A bound variable stands for a literal or for what variables are bound to. -/
theorem IsLayered.resolve_within (layered : b.IsLayered) (within : b.Within P)
    (bound : b.next? (.var name) ≠ none) : ∀ y, b.resolve (.var name) = .var y → P y := by
  obtain ⟨target, htarget⟩ := Option.ne_none_iff_exists'.1 bound
  obtain ⟨entry, hfound, hentry⟩ := Option.map_eq_some_iff.1 htarget
  intro y hy
  rw [← layered.resolve_next? htarget] at hy
  refine within.resolve (t := target) ?_ y hy
  intro x hx
  exact within entry (List.mem_of_find?_eq_some hfound) x (hentry.trans hx)

theorem IsLayered.get?_eq (layered : b.IsLayered) (bound : b.next? (.var name) ≠ none) :
    b.get? name = some (b.resolve (.var name)) := by
  obtain ⟨target, htarget⟩ := Option.ne_none_iff_exists'.1 bound
  rw [get?, show b.target? name = some target from htarget, Option.map_some, layered.resolve_next? htarget]

/-- The pass over two argument lists leaves every variable bound that stands on the left only. -/
theorem bound_of_unifyArgs {lefts rights : List Atom} (within : b.Within P)
    (hright : ∀ v, Atom.var v ∈ rights → P v.name) (length : lefts.length = rights.length)
    (h : b.unifyArgs lefts rights = some b') {v : Variable} (hv : Atom.var v ∈ lefts)
    (hname : ¬ P v.name) : b'.next? (.var v.name) ≠ none := by
  induction lefts generalizing rights b with
  | nil => exact absurd hv List.not_mem_nil
  | cons left lefts ih =>
    cases rights with
    | nil => simp at length
    | cons right rights =>
      rw [unifyArgs, Option.bind_eq_some_iff] at h
      obtain ⟨b₁, hfirst, hrest⟩ := h
      have hstep := unifies_of_unifyTerms hfirst
      have hterm : ∀ x, right.term = .var x → P x := by
        intro x hx
        obtain ⟨w, rfl, rfl⟩ := Atom.term_eq_var_iff.1 hx
        exact hright w List.mem_cons_self
      rcases List.mem_cons.1 hv with rfl | hv
      · exact keeps_of_unifyArgs (·.next? (.var v.name) ≠ none) hrest
          (hstep.left_bound within hterm hname) fun _ _ _ _ _ _ step => step.bound
      · exact ih (hstep.within within hterm) (fun w hw => hright w (List.mem_cons_of_mem _ hw))
          (Nat.succ.inj length) hrest hv

end Bindings

variable {head goal : Fact} {b : Bindings}

/-- Once two facts without a common variable are unified, every variable of the head is bound, to a literal
or a variable of the goal in the end, and no variable of the goal stands for one of the head. So wherever
the bindings are applied to variables of the two facts, literals and variables of the goal are left. -/
theorem unify_eliminates_head (apart : head.Apart goal) (h : unify head goal = some b) :
    (∀ x ∈ head.varNames, ∃ t, b.get? x = some t ∧ b.resolve (.var x) = t ∧
        ((∃ value, t = .lit value) ∨ ∃ y ∈ goal.varNames, t = .var y)) ∧
      (∀ y ∈ goal.varNames, ∀ x ∈ head.varNames, b.resolve (.var y) ≠ .var x) ∧
      ∀ f : Fact, (∀ name ∈ f.varNames, name ∈ head.varNames ∨ name ∈ goal.varNames) →
        ∀ name ∈ (b.substitute f).varNames, name ∈ goal.varNames := by
  have hlayered := isLayered_of_unify h
  have hwithin : b.Within (· ∈ goal.varNames) := Bindings.within_of_unify (fun _ => id) h
  have hbound : ∀ x ∈ head.varNames, b.next? (.var x) ≠ none := by
    obtain ⟨⟨-, harity⟩, hargs, -⟩ := Bindings.unify_eq_some_iff.1 h
    intro x hx
    obtain ⟨v, hv, rfl⟩ := Fact.mem_varNames.1 hx
    exact Bindings.bound_of_unifyArgs Bindings.within_empty (fun _ => Fact.mem_varNames_of_mem) harity hargs
      hv (apart v.name hx)
  have hgoal : ∀ y ∈ goal.varNames, ∀ x, b.resolve (.var y) = .var x → x ∈ goal.varNames := by
    intro y hy
    refine hwithin.resolve fun x hx => ?_
    exact Term.var.inj hx ▸ hy
  have hhead : ∀ x ∈ head.varNames, ∀ y, b.resolve (.var x) = .var y → y ∈ goal.varNames :=
    fun x hx => hlayered.resolve_within hwithin (hbound x hx)
  refine ⟨fun x hx => ⟨_, hlayered.get?_eq (hbound x hx), rfl, ?_⟩, fun y hy x hx hroot => ?_, ?_⟩
  · cases hroot : b.resolve (.var x) with
    | lit value => exact .inl ⟨value, rfl⟩
    | var y => exact .inr ⟨y, hhead x hx y hroot, rfl⟩
  · exact apart x hx (hgoal y hy x hroot)
  · intro f hf name hname
    obtain ⟨other, hother, hroot⟩ := Bindings.mem_varNames_substitute.1 hname
    rcases hf other hother with hin | hin
    · exact hhead other hin name hroot
    · exact hgoal other hin name hroot

/-- `p(H, H, K, L)` and `p(X, Y, Y, 7)`: at the second place the left side stands for `X`, a variable of the
goal, and it is that one that is bound to `Y`. -/
theorem unify_eliminates_head_repeated :
    let free := fun name => Atom.var ⟨.named name, none⟩
    let head : Fact := ⟨"p", [free "H", free "H", free "K", free "L"]⟩
    let goal : Fact := ⟨"p", [free "X", free "Y", free "Y", .lit (.integer 7)]⟩
    let b : Bindings := ⟨[⟨.named "L", .lit (.integer 7)⟩, ⟨.named "K", .var (.named "Y")⟩,
      ⟨.named "X", .var (.named "Y")⟩, ⟨.named "H", .var (.named "X")⟩]⟩
    let body : Fact := ⟨"q", [free "H", free "X", free "L"]⟩
    head.Apart goal ∧ unify head goal = some b ∧
      (.named "H" ∈ head.varNames ∧ ∃ t, b.get? (.named "H") = some t ∧
        b.resolve (.var (.named "H")) = t ∧
          ((∃ value, t = .lit value) ∨ ∃ y ∈ goal.varNames, t = .var y)) ∧
      (.named "X" ∈ goal.varNames ∧ b.resolve (.var (.named "X")) ≠ .var (.named "H")) ∧
      b.substitute body = ⟨"q", [free "Y", free "Y", .lit (.integer 7)]⟩ ∧
        ∀ name ∈ (b.substitute body).varNames, name ∈ goal.varNames := by
  intro free head goal b body
  have hapart : head.Apart goal := by decide
  have hunify : unify head goal = some b := rfl
  have hH : .named "H" ∈ head.varNames := by decide
  have hX : .named "X" ∈ goal.varNames := by decide
  obtain ⟨hbound, hstays, hleft⟩ := unify_eliminates_head hapart hunify
  exact ⟨hapart, hunify, ⟨hH, hbound _ hH⟩, ⟨hX, hstays _ hX _ hH⟩, rfl, hleft body (by decide)⟩

end Horn
