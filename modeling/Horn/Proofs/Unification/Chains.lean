import Horn.Proofs.Unification.Demands

/-!
Bindings never lead back to where they began.

A bound variable leads to what it was bound to, and so on. Unification binds only variables that are free
at the time, and only to what is free or a literal; so from every term a chain of bindings ends, after as
many steps at most as there are bindings, and what it ends at is what `resolve` finds in one pass. Main
statement: `bindings_never_cycle`, for every state on the way and for the bindings in the end.
-/

set_option autoImplicit false
set_option relaxedAutoImplicit false

namespace Horn

namespace Bindings

variable {b : Bindings} {name : VarName} {target t t' : Term}

/-- What a term leads to: a bound variable leads to what it was bound to; a free variable and a literal
lead nowhere. -/
def next? (b : Bindings) : Term → Option Term
  | .var name => b.target? name
  | .lit _ => none

/-- What so many steps lead to, if the chain is as long as that. -/
def steps? (b : Bindings) : Nat → Term → Option Term
  | 0, t => some t
  | count + 1, t => (b.next? t).bind (b.steps? count)

/-- Bindings of different variables of which no chain leads back; every chain ends, after as many steps at
most as there are bindings, at the literal or free variable that `resolve` finds. -/
structure IsAcyclic (b : Bindings) : Prop where
  once : (b.entries.map Binding.name).Nodup
  ends : ∀ t, ∃ count ≤ b.size, b.steps? count t = some (b.resolve t) ∧ b.next? (b.resolve t) = none
  noReturn : ∀ t count, b.steps? (count + 1) t ≠ some t

/-- Bindings made one after the other, each of a variable that was free to what led nowhere. -/
inductive IsLayered : Bindings → Prop
  | empty : IsLayered ∅
  | bind {b : Bindings} {name : VarName} {target : Term} : IsLayered b →
      b.next? (.var name) = none → b.next? target = none → target ≠ .var name →
      IsLayered (b.bind name target)

/-! ### Chains -/

theorem next?_bind_self : (b.bind name target).next? (.var name) = some target := by
  simp [next?, target?, Bindings.bind]

theorem next?_bind_of_ne (ne : t ≠ .var name) : (b.bind name target).next? t = b.next? t := by
  cases t with
  | lit value => rfl
  | var other =>
    have hne : name ≠ other := fun h => ne (congrArg Term.var h.symm)
    simp [next?, target?, Bindings.bind, hne]

theorem not_mem_of_next? (free : b.next? (.var name) = none) : name ∉ b.entries.map Binding.name := by
  rw [next?, target?, Option.map_eq_none_iff, List.find?_eq_none] at free
  intro hmem
  obtain ⟨entry, hentry, hname⟩ := List.mem_map.1 hmem
  exact free entry hentry (decide_eq_true hname)

/-- What leads nowhere stands for itself. -/
theorem resolve_of_next? (ended : b.next? t = none) : b.resolve t = t := by
  cases t with
  | lit value => exact resolve_lit b value
  | var name =>
    apply resolve_eq_self
    rw [List.any_eq_false]
    intro entry hentry hname
    exact not_mem_of_next? ended (List.mem_map.2 ⟨entry, hentry, of_decide_eq_true hname⟩)

theorem steps?_add (m n : Nat) (t : Term) : b.steps? (m + n) t = (b.steps? m t).bind (b.steps? n) := by
  induction m generalizing t with
  | zero => rw [Nat.zero_add, steps?, Option.bind_some]
  | succ m ih =>
    rw [Nat.succ_add, steps?, steps?, Option.bind_assoc]
    exact congrArg _ (funext ih)

/-- A new binding leaves the chains that are there. -/
theorem steps?_bind (free : b.next? (.var name) = none) {count : Nat} {last : Term}
    (h : b.steps? count t = some last) : (b.bind name target).steps? count t = some last := by
  induction count generalizing t with
  | zero => exact h
  | succ count ih =>
    rw [steps?, Option.bind_eq_some_iff] at h
    obtain ⟨t', hnext, hrest⟩ := h
    have hne : t ≠ .var name := by
      rintro rfl
      rw [free] at hnext
      cases hnext
    rw [steps?, next?_bind_of_ne hne, hnext]
    exact ih hrest

/-- A chain that ends does not lead back: else it could be followed without end. -/
theorem steps?_ne_self {count : Nat} {last : Term} (steps : b.steps? count t = some last)
    (ended : b.next? last = none) (more : Nat) : b.steps? (more + 1) t ≠ some t := by
  intro hback
  have hround (k : Nat) : b.steps? (k * (more + 1)) t = some t := by
    induction k with
    | zero => rw [Nat.zero_mul, steps?]
    | succ k ih => rw [Nat.succ_mul, steps?_add, ih, Option.bind_some, hback]
  have hlong : (count + 1) * (more + 1) = count + (count * more + more + 1) := by
    rw [Nat.succ_mul, Nat.mul_succ]
    omega
  have hover := hround (count + 1)
  rw [hlong, steps?_add, steps, Option.bind_some, steps?, ended] at hover
  cases hover

namespace IsLayered

theorem nodup (h : b.IsLayered) : (b.entries.map Binding.name).Nodup := by
  induction h with
  | empty => exact List.nodup_nil
  | bind _ free _ _ ih => exact List.nodup_cons.2 ⟨not_mem_of_next? free, ih⟩

theorem exists_steps? (h : b.IsLayered) (t : Term) :
    ∃ count ≤ b.size, b.steps? count t = some (b.resolve t) ∧ b.next? (b.resolve t) = none := by
  induction h with
  | empty => exact ⟨0, Nat.le_refl 0, rfl, by cases t <;> rfl⟩
  | @bind b name target _ free ended ne ih =>
    obtain ⟨count, hcount, hsteps, hend⟩ := ih
    have hsteps' : (b.bind name target).steps? count t = some (b.resolve t) := steps?_bind free hsteps
    rw [resolve_bind]
    cases hroot : b.resolve t with
    | lit value =>
      rw [hroot] at hsteps'
      exact ⟨count, Nat.le_succ_of_le hcount, hsteps', rfl⟩
    | var root =>
      rw [hroot] at hend hsteps'
      rw [Binding.follow]
      split
      · -- The chain ended at the variable that is bound now, so it has one more step.
        rename_i hname
        subst hname
        refine ⟨count + 1, Nat.succ_le_succ hcount, ?_, ?_⟩
        · rw [steps?_add, hsteps', Option.bind_some, steps?, next?_bind_self, Option.bind_some, steps?]
        · rw [next?_bind_of_ne ne, ended]
      · rename_i hname
        have hne : Term.var root ≠ .var name := fun heq => hname (Term.var.inj heq)
        exact ⟨count, Nat.le_succ_of_le hcount, hsteps', by rw [next?_bind_of_ne hne, hend]⟩

theorem next?_resolve (h : b.IsLayered) (t : Term) : b.next? (b.resolve t) = none := by
  obtain ⟨_, _, _, hend⟩ := h.exists_steps? t
  exact hend

theorem isAcyclic (h : b.IsLayered) : b.IsAcyclic where
  once := h.nodup
  ends := h.exists_steps?
  noReturn t more := by
    obtain ⟨_, _, hsteps, hend⟩ := h.exists_steps? t
    exact steps?_ne_self hsteps hend more

theorem resolve_resolve (h : b.IsLayered) (t : Term) : b.resolve (b.resolve t) = b.resolve t :=
  resolve_of_next? (h.next?_resolve t)

/-- A term stands for what the term it leads to stands for. -/
theorem resolve_next? (h : b.IsLayered) (leads : b.next? t = some t') : b.resolve t' = b.resolve t := by
  induction h with
  | empty => cases t <;> cases leads
  | @bind b name target _ free ended ne ih =>
    rw [resolve_bind, resolve_bind]
    by_cases hname : t = .var name
    · subst hname
      rw [next?_bind_self, Option.some.injEq] at leads
      subst leads
      rw [resolve_of_next? ended, resolve_of_next? free]
      cases target with
      | lit value => simp [Binding.follow]
      | var other =>
        have hne : other ≠ name := fun heq => ne (congrArg Term.var heq)
        simp [Binding.follow, hne]
    · rw [next?_bind_of_ne hname] at leads
      rw [ih leads]

/-! ### Substituting twice -/

theorem substituteAtom_substituteAtom (h : b.IsLayered) (a : Atom) :
    b.substituteAtom (b.substituteAtom a) = b.substituteAtom a := by
  cases a with
  | lit value => rfl
  | var v =>
    have htwice := h.resolve_resolve (.var v.name)
    cases hroot : b.resolve (.var v.name) with
    | lit value => simp [substituteAtom, hroot]
    | var root =>
      rw [hroot] at htwice
      simp [substituteAtom, hroot, htwice]

theorem respectsAtom_substituteAtom (h : b.IsLayered) (a : Atom) :
    b.respectsAtom (b.substituteAtom a) = true := by
  cases a with
  | lit value => rfl
  | var v =>
    have htwice := h.resolve_resolve (.var v.name)
    cases hroot : b.resolve (.var v.name) with
    | lit value => simp [substituteAtom, respectsAtom, hroot]
    | var root =>
      rw [hroot] at htwice
      simp only [substituteAtom, respectsAtom, hroot, htwice]
      cases v.condition <;> rfl

theorem substitute_substitute (h : b.IsLayered) (f : Fact) :
    b.substitute (b.substitute f) = b.substitute f := by
  have hargs : (f.args.map b.substituteAtom).map b.substituteAtom = f.args.map b.substituteAtom := by
    rw [List.map_map]
    exact List.map_congr_left fun a _ => h.substituteAtom_substituteAtom a
  rw [substitute, substitute, hargs]

theorem respects_substitute (h : b.IsLayered) (f : Fact) : b.respects (b.substitute f) = true := by
  refine List.all_eq_true.2 fun a ha => ?_
  obtain ⟨c, -, rfl⟩ := List.mem_map.1 ha
  exact h.respectsAtom_substituteAtom c

end IsLayered

/-! ### What unification binds -/

theorem IsLayered.unifies {left right : Term} {b' : Bindings} (h : b.IsLayered)
    (step : b.Unifies left right b') : b'.IsLayered := by
  cases step with
  | literals _ _ _ => exact h
  | same _ _ => exact h
  | left hleft ne => exact h.bind (hleft ▸ h.next?_resolve left) (h.next?_resolve right) ne
  | right hleft hright => exact h.bind (hright ▸ h.next?_resolve right) rfl nofun

end Bindings

namespace Unifier

variable {u : Unifier}

/-- A state in which the pass over two facts is after some of their places. -/
def Passes (head goal : Fact) (u : Unifier) : Prop :=
  ∃ count, (start head goal).unifyArgs (head.args.take count) (goal.args.take count) = some u

theorem Passes.isLayered {head goal : Fact} (h : Passes head goal u) : u.bindings.IsLayered := by
  obtain ⟨_, hargs⟩ := h
  exact Bindings.keeps_of_unifyArgs Bindings.IsLayered (unifyArgs_bindings hargs) .empty
    fun _ _ _ _ _ _ step layered => layered.unifies step

end Unifier

/-- Bindings that unify two facts are those of the last state of the pass. -/
theorem exists_passes_of_unify {head goal : Fact} {b : Bindings} (h : unify head goal = some b) :
    ∃ u, Unifier.Passes head goal u ∧ u.bindings = b := by
  rw [unify, Option.ite_none_right_eq_some] at h
  obtain ⟨⟨-, harity, -⟩, hargs⟩ := h
  obtain ⟨u, hu, rfl⟩ := Option.map_eq_some_iff.1 hargs
  refine ⟨u, ⟨head.arity, ?_⟩, rfl⟩
  have hgoal : goal.args.take head.arity = goal.args := by
    rw [harity]
    exact List.take_length
  rwa [hgoal, show head.args.take head.arity = head.args from List.take_length]

theorem isLayered_of_unify {head goal : Fact} {b : Bindings} (h : unify head goal = some b) :
    b.IsLayered := by
  obtain ⟨u, hpasses, rfl⟩ := exists_passes_of_unify h
  exact hpasses.isLayered

/-- Bindings have no cycle, after as many places as one likes and in the end; so whatever has been
substituted once, a second substitution leaves as it is, with nothing to check. The two facts may share
names. -/
theorem bindings_never_cycle (head goal : Fact) :
    (∀ u, Unifier.Passes head goal u → u.bindings.IsAcyclic) ∧
      ∀ b, unify head goal = some b → b.IsAcyclic ∧
        ∀ f, b.substitute (b.substitute f) = b.substitute f ∧ b.respects (b.substitute f) = true := by
  refine ⟨fun u hpasses => hpasses.isLayered.isAcyclic, fun b hb => ?_⟩
  have hlayered := isLayered_of_unify hb
  exact ⟨hlayered.isAcyclic, fun f => ⟨hlayered.substitute_substitute f, hlayered.respects_substitute f⟩⟩

/-- `p(A, B, A)` and `p(B, C, 7)` share a name. `A` is bound to `B`, `B` to `C` and `C` to the literal, so
the chain from `A` has as many steps as there are bindings; after two places it ends at `C`. -/
theorem bindings_never_cycle_shared :
    let free := fun name => Atom.var ⟨.named name, none⟩
    let head : Fact := ⟨"p", [free "A", free "B", free "A"]⟩
    let goal : Fact := ⟨"p", [free "B", free "C", .lit (.integer 7)]⟩
    let linked : Bindings := ⟨[⟨.named "B", .var (.named "C")⟩, ⟨.named "A", .var (.named "B")⟩]⟩
    let b := linked.bind (.named "C") (.lit (.integer 7))
    (Unifier.Passes head goal ⟨linked, []⟩ ∧ linked.IsAcyclic ∧
        linked.steps? 2 (.var (.named "A")) = some (.var (.named "C"))) ∧
      unify head goal = some b ∧ b.IsAcyclic ∧ b.size = 3 ∧
        b.steps? 3 (.var (.named "A")) = some (.lit (.integer 7)) ∧
          ∀ f, b.substitute (b.substitute f) = b.substitute f ∧ b.respects (b.substitute f) = true := by
  intro free head goal linked b
  have hpasses : Unifier.Passes head goal ⟨linked, []⟩ := ⟨2, rfl⟩
  have hunify : unify head goal = some b := rfl
  obtain ⟨hstates, hend⟩ := bindings_never_cycle head goal
  obtain ⟨hacyclic, htwice⟩ := hend b hunify
  exact ⟨⟨hpasses, hstates _ hpasses, rfl⟩, hunify, hacyclic, rfl, rfl, htwice⟩

end Horn
