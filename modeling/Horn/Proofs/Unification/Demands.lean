import Horn.Unification

/-!
Conditions can be looked at when unification is over.

`unify` carries the conditions of a class along and tests them as soon as the class meets a literal.
`unify_eq_filter`: it comes to the same to make the arguments equal without regard to any condition,
and to ask in the end whether the conditions hold of the literals that have come in.

`Bindings.Unifies` lists what happens to bindings at one place; `Bindings.keeps_of_unifyArgs` carries what
each place keeps through the pass over all of them.
-/

set_option autoImplicit false
set_option relaxedAutoImplicit false

namespace Horn

namespace Bindings

/-- Makes two terms equal without regard to conditions. -/
def unifyTerms (b : Bindings) (left right : Term) : Option Bindings :=
  match b.resolve left, b.resolve right with
  | .lit u, .lit v => if u == v then some b else none
  | .var x, .lit v => some (b.bind x (.lit v))
  | .lit u, .var y => some (b.bind y (.lit u))
  | .var x, .var y => some (if x = y then b else b.bind x (.var y))

/-- Makes the arguments at each place equal without regard to conditions. -/
def unifyArgs (b : Bindings) : List Atom → List Atom → Option Bindings
  | left :: lefts, right :: rights =>
    (b.unifyTerms left.term right.term).bind fun b => b.unifyArgs lefts rights
  | _, _ => some b

/-- The literals that bindings give to variables satisfy the conditions on these. -/
def Meets (b : Bindings) (written : List Demand) : Prop :=
  ∀ d ∈ written, ∀ value, b.resolve (.var d.name) = .lit value → d.condition.holds value = true

variable {b b' : Bindings} {written : List Demand}

private theorem resolve_bind_lit {name : VarName} {target t : Term} {value : Literal}
    (h : b.resolve t = .lit value) : (b.bind name target).resolve t = .lit value := by
  rw [resolve_bind, h]
  rfl

/-- What making two terms equal does to bindings: nothing, or it binds the variable that the one stands
for. Of two variables the left one is bound. -/
inductive Unifies (b : Bindings) (left right : Term) : Bindings → Prop
  /-- Both stand for literals, which are equal. -/
  | literals {u v : Literal} (hleft : b.resolve left = .lit u) (hright : b.resolve right = .lit v)
      (equal : (u == v) = true) : Unifies b left right b
  /-- Both stand for one variable. -/
  | same {x : VarName} (hleft : b.resolve left = .var x) (hright : b.resolve right = .var x) :
      Unifies b left right b
  /-- The left one stands for a variable of its own. -/
  | left {x : VarName} (hleft : b.resolve left = .var x) (ne : b.resolve right ≠ .var x) :
      Unifies b left right (b.bind x (b.resolve right))
  /-- Only the right one stands for a variable. -/
  | right {y : VarName} {u : Literal} (hleft : b.resolve left = .lit u)
      (hright : b.resolve right = .var y) : Unifies b left right (b.bind y (.lit u))

theorem unifies_of_unifyTerms {left right : Term} (h : b.unifyTerms left right = some b') :
    b.Unifies left right b' := by
  rw [unifyTerms] at h
  split at h
  · rename_i hleft hright
    obtain ⟨hequal, hsame⟩ := Option.ite_none_right_eq_some.1 h
    cases hsame
    exact .literals hleft hright hequal
  · rename_i x v hleft hright
    cases h
    rw [← hright]
    exact .left hleft (by rw [hright]; exact nofun)
  · rename_i hleft hright
    cases h
    exact .right hleft hright
  · rename_i x y hleft hright
    cases h
    split
    · rename_i hname
      exact .same hleft (hname ▸ hright)
    · rename_i hname
      rw [← hright]
      exact .left hleft (by rw [hright]; exact fun heq => hname (Term.var.inj heq).symm)

/-- What is kept wherever two arguments are made equal is kept from the first place to the last. -/
theorem keeps_of_unifyArgs (Keeps : Bindings → Prop) {lefts rights : List Atom}
    (h : b.unifyArgs lefts rights = some b') (start : Keeps b)
    (step : ∀ b b' left right, left ∈ lefts → right ∈ rights →
      b.Unifies left.term right.term b' → Keeps b → Keeps b') : Keeps b' := by
  induction lefts generalizing b rights with
  | nil =>
    obtain rfl : b = b' := by simpa [unifyArgs] using h
    exact start
  | cons left lefts ih =>
    cases rights with
    | nil =>
      obtain rfl : b = b' := by simpa [unifyArgs] using h
      exact start
    | cons right rights =>
      rw [unifyArgs, Option.bind_eq_some_iff] at h
      obtain ⟨b₁, hfirst, hrest⟩ := h
      refine ih hrest ?_ fun c c' l r hl hr =>
        step c c' l r (List.mem_cons_of_mem _ hl) (List.mem_cons_of_mem _ hr)
      exact step b b₁ left right List.mem_cons_self List.mem_cons_self (unifies_of_unifyTerms hfirst) start

private theorem Unifies.resolve_lit {left right t : Term} {value : Literal}
    (step : b.Unifies left right b') (lit : b.resolve t = .lit value) : b'.resolve t = .lit value := by
  cases step with
  | literals _ _ _ => exact lit
  | same _ _ => exact lit
  | left _ _ => exact resolve_bind_lit lit
  | right _ _ => exact resolve_bind_lit lit

/-- Later bindings change no literal, so a condition that fails once fails in the end. -/
private theorem Meets.of_unifyArgs {lefts rights : List Atom} (meets : b'.Meets written)
    (h : b.unifyArgs lefts rights = some b') : b.Meets written := by
  intro d hd value hvalue
  exact meets d hd value (keeps_of_unifyArgs (·.resolve (.var d.name) = .lit value) h hvalue
    fun _ _ _ _ _ _ step => step.resolve_lit)

/-- Argument lists that unify have no literals that face each other and differ. -/
private theorem agree_of_unifyArgs {lefts rights : List Atom}
    (h : b.unifyArgs lefts rights = some b') : Atom.agree lefts rights = true := by
  induction lefts generalizing b rights with
  | nil => simp [Atom.agree]
  | cons left lefts ih =>
    cases rights with
    | nil => simp [Atom.agree]
    | cons right rights =>
      rw [unifyArgs, Option.bind_eq_some_iff] at h
      obtain ⟨b₁, hfirst, hrest⟩ := h
      have hagree := ih hrest
      cases left with
      | var v => rwa [Atom.agree]; simp
      | lit u =>
        cases right with
        | var w => rwa [Atom.agree]; simp
        | lit v =>
          have hequal : (u == v) = true := by
            simp only [unifyTerms, Atom.term, resolve_lit] at hfirst
            exact (Option.ite_none_right_eq_some.1 hfirst).1
          rw [Atom.agree, hequal, hagree]
          rfl

end Bindings

namespace Unifier

/-- A unifier has at the variable that stands for a class exactly the conditions written in the class,
and none of them has failed. -/
structure Tracks (u : Unifier) (written : List Demand) : Prop where
  kept : ∀ d ∈ written, ∀ name, u.bindings.resolve (.var d.name) = .var name →
    ⟨name, d.condition⟩ ∈ u.demands
  origin : ∀ d ∈ u.demands, ∀ t, u.bindings.resolve t = .var d.name →
    ∃ e ∈ written, e.condition = d.condition ∧ u.bindings.resolve (.var e.name) = .var d.name
  met : u.bindings.Meets written

variable {u : Unifier} {written : List Demand} {left right : Term} {x y : VarName}

private theorem resolve_bind_var_iff {b : Bindings} {target t : Term} :
    (b.bind x target).resolve t = .var y ↔
      (b.resolve t = .var x ∧ target = .var y) ∨ (b.resolve t = .var y ∧ y ≠ x) := by
  rw [Bindings.resolve_bind]
  cases b.resolve t with
  | lit value => simp [Binding.follow]
  | var z =>
    by_cases hz : z = x
    · subst hz
      simp only [Binding.follow, if_true, true_and, Term.var.injEq]
      constructor
      · exact .inl
      · rintro (h | ⟨rfl, hne⟩)
        · exact h
        · exact absurd rfl hne
    · rw [Binding.follow, if_neg hz]
      simp only [Term.var.injEq, hz, false_and, false_or]
      constructor
      · rintro rfl
        exact ⟨rfl, hz⟩
      · exact And.left

private theorem resolve_bind_lit_iff {b : Bindings} {target t : Term} {value : Literal} :
    (b.bind x target).resolve t = .lit value ↔
      (b.resolve t = .var x ∧ target = .lit value) ∨ b.resolve t = .lit value := by
  rw [Bindings.resolve_bind]
  cases b.resolve t with
  | lit w => simp [Binding.follow]
  | var z => by_cases hz : z = x <;> simp [Binding.follow, hz]

/-- A class is bound to a literal exactly if its conditions allow it. -/
private theorem Tracks.bindLiteral (tracks : u.Tracks written) {t : Term}
    (stands : u.bindings.resolve t = .var x) (value : Literal) :
    (∃ u', u.bindLiteral x value = some u' ∧ u'.bindings = u.bindings.bind x (.lit value) ∧
        u'.Tracks written) ∨
      (u.bindLiteral x value = none ∧ ¬ (u.bindings.bind x (.lit value)).Meets written) := by
  rw [Unifier.bindLiteral]
  split
  case isTrue holds =>
    rw [List.all_eq_true] at holds
    refine .inl ⟨_, rfl, rfl, ?_, ?_, ?_⟩
    · intro d hd name hname
      rcases resolve_bind_var_iff.1 hname with ⟨-, himpossible⟩ | ⟨hname, -⟩
      · cases himpossible
      · exact tracks.kept d hd name hname
    · intro d hd s hs
      rcases resolve_bind_var_iff.1 hs with ⟨-, himpossible⟩ | ⟨hs, hne⟩
      · cases himpossible
      · obtain ⟨e, he, hcondition, hname⟩ := tracks.origin d hd s hs
        exact ⟨e, he, hcondition, resolve_bind_var_iff.2 (.inr ⟨hname, hne⟩)⟩
    · intro d hd w hw
      rcases resolve_bind_lit_iff.1 hw with ⟨hname, hvalue⟩ | hvalue
      · cases hvalue
        have hdemand := holds _ (tracks.kept d hd x hname)
        simpa using hdemand
      · exact tracks.met d hd w hvalue
  case isFalse fails =>
    refine .inr ⟨rfl, fun meets => fails ?_⟩
    rw [List.all_eq_true]
    intro d hd
    by_cases hx : d.name = x
    · obtain ⟨e, he, hcondition, hname⟩ := tracks.origin d hd t (by rw [stands, hx])
      rw [hx] at hname
      have hholds := meets e he value (resolve_bind_lit_iff.2 (.inl ⟨hname, rfl⟩))
      rw [hcondition] at hholds
      simp [hholds]
    · simp [hx]

/-- Linking two classes keeps track of the conditions of both. -/
private theorem Tracks.bindVariable (tracks : u.Tracks written) (hleft : u.bindings.resolve left = .var x)
    (hright : u.bindings.resolve right = .var y) : (u.bindVariable x y).Tracks written := by
  refine ⟨?_, ?_, ?_⟩
  · intro d hd name hname
    refine List.mem_map.2 ?_
    rcases resolve_bind_var_iff.1 hname with ⟨hx, htarget⟩ | ⟨hother, hneq⟩
    · cases htarget
      exact ⟨_, tracks.kept d hd x hx, by simp [Demand.move]⟩
    · exact ⟨_, tracks.kept d hd name hother, by simp [Demand.move, hneq]⟩
  · intro d' hd' t ht
    obtain ⟨d, hd, rfl⟩ := List.mem_map.1 hd'
    by_cases hx : d.name = x
    · obtain ⟨e, he, hcondition, hname⟩ := tracks.origin d hd left (by rw [hleft, hx])
      rw [hx] at hname
      rw [Demand.move, if_pos hx]
      exact ⟨e, he, hcondition, resolve_bind_var_iff.2 (.inl ⟨hname, rfl⟩)⟩
    · rw [Demand.move, if_neg hx] at ht ⊢
      have hroot : ∃ s, u.bindings.resolve s = .var d.name := by
        rcases resolve_bind_var_iff.1 ht with ⟨-, htarget⟩ | ⟨hold, -⟩
        · exact ⟨right, hright.trans htarget⟩
        · exact ⟨t, hold⟩
      obtain ⟨s, hs⟩ := hroot
      obtain ⟨e, he, hcondition, hname⟩ := tracks.origin d hd s hs
      exact ⟨e, he, hcondition, resolve_bind_var_iff.2 (.inr ⟨hname, hx⟩)⟩
  · intro d hd value hvalue
    rcases resolve_bind_lit_iff.1 hvalue with ⟨-, himpossible⟩ | hold
    · cases himpossible
    · exact tracks.met d hd value hold

/-- At one place a unifier does what is done without regard to conditions, unless one of them fails. -/
private theorem Tracks.unifyTerms (tracks : u.Tracks written) (left right : Term) :
    (∃ u', u.unifyTerms left right = some u' ∧
        u.bindings.unifyTerms left right = some u'.bindings ∧ u'.Tracks written) ∨
      (u.unifyTerms left right = none ∧
        ∀ b, u.bindings.unifyTerms left right = some b → ¬ b.Meets written) := by
  have hliteral {t : Term} {x : VarName} (stands : u.bindings.resolve t = .var x) (value : Literal) :
      (∃ u', u.bindLiteral x value = some u' ∧
          some (u.bindings.bind x (.lit value)) = some u'.bindings ∧ u'.Tracks written) ∨
        (u.bindLiteral x value = none ∧
          ∀ b, some (u.bindings.bind x (.lit value)) = some b → ¬ b.Meets written) := by
    rcases tracks.bindLiteral stands value with ⟨u', hu', hb, htracks⟩ | ⟨hnone, hfails⟩
    · exact .inl ⟨u', hu', congrArg some hb.symm, htracks⟩
    · refine .inr ⟨hnone, fun b hb => ?_⟩
      cases hb
      exact hfails
  rw [Unifier.unifyTerms, Bindings.unifyTerms]
  cases hleft : u.bindings.resolve left with
  | lit a =>
    cases hright : u.bindings.resolve right with
    | lit c =>
      by_cases hequal : (a == c) = true
      · exact .inl ⟨u, if_pos hequal, if_pos hequal, tracks⟩
      · refine .inr ⟨if_neg hequal, fun b hb => ?_⟩
        simp [hequal] at hb
    | var y => exact hliteral hright a
  | var x =>
    cases hright : u.bindings.resolve right with
    | lit c => exact hliteral hleft c
    | var y =>
      by_cases hxy : x = y
      · exact .inl ⟨u, by simp only [if_pos hxy], by simp only [if_pos hxy], tracks⟩
      · refine .inl ⟨u.bindVariable x y, by simp only [if_neg hxy], ?_, ?_⟩
        · simp only [if_neg hxy]
          rfl
        · exact tracks.bindVariable hleft hright

private theorem Tracks.unifyArgs_eq_some_iff (tracks : u.Tracks written) (lefts rights : List Atom)
    (b : Bindings) : (u.unifyArgs lefts rights).map Unifier.bindings = some b ↔
      u.bindings.unifyArgs lefts rights = some b ∧ b.Meets written := by
  induction lefts generalizing u rights with
  | nil =>
    simp only [Unifier.unifyArgs, Bindings.unifyArgs, Option.map_some, Option.some.injEq]
    exact ⟨fun h => ⟨h, h ▸ tracks.met⟩, And.left⟩
  | cons left lefts ih =>
    cases rights with
    | nil =>
      simp only [Unifier.unifyArgs, Bindings.unifyArgs, Option.map_some, Option.some.injEq]
      exact ⟨fun h => ⟨h, h ▸ tracks.met⟩, And.left⟩
    | cons right rights =>
      rw [Unifier.unifyArgs, Bindings.unifyArgs]
      rcases tracks.unifyTerms left.term right.term with
        ⟨u', hu', hb', htracks⟩ | ⟨hnone, hfails⟩
      · rw [hu', hb', Option.bind_some, Option.bind_some]
        exact ih htracks rights
      · rw [hnone, Option.bind_none, Option.map_none]
        refine ⟨nofun, ?_⟩
        rintro ⟨hunify, hmeets⟩
        obtain ⟨b₁, hfirst, hrest⟩ := Option.bind_eq_some_iff.1 hunify
        exact absurd (hmeets.of_unifyArgs hrest) (hfails b₁ hfirst)

private theorem tracks_start (head goal : Fact) :
    (start head goal).Tracks (start head goal).demands := by
  refine ⟨?_, ?_, ?_⟩
  · intro d hd name hname
    cases hname
    exact hd
  · intro d hd t ht
    exact ⟨d, hd, rfl, rfl⟩
  · intro d hd value hvalue
    cases hvalue

end Unifier

private theorem Bindings.respects_iff {b : Bindings} {f : Fact} :
    b.respects f = true ↔ b.Meets (f.occurrences.filterMap Variable.demand?) := by
  rw [respects, List.all_eq_true]
  constructor
  · intro h d hd value hvalue
    obtain ⟨v, hv, hdemand⟩ := List.mem_filterMap.1 hd
    obtain ⟨c, hc, rfl⟩ := Option.map_eq_some_iff.1 hdemand
    obtain ⟨a, ha, hoccurrence⟩ := List.mem_filterMap.1 hv
    cases a with
    | lit w => cases hoccurrence
    | var w =>
      cases hoccurrence
      have hatom := h _ ha
      rw [respectsAtom, Option.all_eq_true] at hatom
      have hholds := hatom c hc
      rwa [hvalue] at hholds
  · intro h a ha
    cases a with
    | lit w => rfl
    | var v =>
      rw [respectsAtom, Option.all_eq_true]
      intro c hc
      cases hvalue : b.resolve (.var v.name) with
      | var x => rfl
      | lit value =>
        have hv : v ∈ f.occurrences := List.mem_filterMap.2 ⟨_, ha, rfl⟩
        have hdemand : v.demand? = some ⟨v.name, c⟩ := by rw [Variable.demand?, hc, Option.map_some]
        exact h _ (List.mem_filterMap.2 ⟨v, hv, hdemand⟩) value hvalue

private theorem Bindings.meets_start_iff {b : Bindings} {head goal : Fact} :
    b.Meets (Unifier.start head goal).demands ↔ b.respects head = true ∧ b.respects goal = true := by
  rw [respects_iff, respects_iff, Unifier.start, List.filterMap_append]
  exact List.forall_mem_append

/-- From the start on, a unifier has the bindings that are made without regard to conditions. -/
theorem Unifier.unifyArgs_bindings {head goal : Fact} {lefts rights : List Atom} {u : Unifier}
    (h : (start head goal).unifyArgs lefts rights = some u) :
    (∅ : Bindings).unifyArgs lefts rights = some u.bindings :=
  (((tracks_start head goal).unifyArgs_eq_some_iff lefts rights u.bindings).1
    (by rw [h, Option.map_some])).1

/-- To unify is to make the arguments equal without regard to conditions and then to look whether the
conditions in both facts hold. -/
theorem unify_eq_filter (head goal : Fact) :
    unify head goal = if head.functor = goal.functor ∧ head.arity = goal.arity then
      ((∅ : Bindings).unifyArgs head.args goal.args).filter fun b =>
        b.respects head && b.respects goal
    else none := by
  refine Option.ext fun b => ?_
  have hunifier := (Unifier.tracks_start head goal).unifyArgs_eq_some_iff head.args goal.args b
  rw [Bindings.meets_start_iff] at hunifier
  rw [unify]
  by_cases hsame : head.functor = goal.functor ∧ head.arity = goal.arity
  · rw [if_pos hsame, Option.filter_eq_some_iff, Bool.and_eq_true]
    split
    case isTrue => exact hunifier
    case isFalse clash =>
      refine ⟨nofun, ?_⟩
      rintro ⟨hunify, -⟩
      exact absurd ⟨hsame.1, hsame.2, Bindings.agree_of_unifyArgs hunify⟩ clash
  · rw [if_neg hsame, if_neg fun h => hsame ⟨h.1, h.2.1⟩]

end Horn
