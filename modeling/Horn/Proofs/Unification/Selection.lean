import Horn.Proofs.Unification.Names

/-!
Which tuples of literals a goal selects.

A tuple is selected if it has the literals of the goal at their places, equal literals where the goal
repeats a variable, and literals that satisfy the conditions of the goal. `unify_ofLiterals_iff`: these
are the ground facts with which the goal unifies, and `exists_substitute_eq` tells what the goal becomes.
-/

set_option autoImplicit false
set_option relaxedAutoImplicit false

namespace Horn

/-- Whether a literal can stand in the place of an argument, other places aside. -/
def Atom.admits (value : Literal) : Atom → Bool
  | .lit u => u == value
  | .var v => v.condition.all fun c => c.holds value

/-- Whether two arguments are the same variable. -/
def Atom.sharesName : Atom → Atom → Bool
  | .var v, .var w => v.name = w.name
  | _, _ => false

/-- Whether a tuple of literals fits the arguments of a goal: at every place the literal or condition,
and equal literals at the places of one variable. -/
def Fact.selects (goal : Fact) (values : List Literal) : Bool :=
  let placed := goal.args.zip values
  placed.all fun p => p.1.admits p.2 &&
    placed.all fun q => !p.1.sharesName q.1 || p.2 == q.2

namespace Fact

variable {goal : Fact} {values : List Literal} {θ : Valuation}

private theorem value_beq_of_mem_zip {args : List Atom} (h : (args.map (Atom.value θ) == values) = true)
    {a : Atom} {u : Literal} (mem : (a, u) ∈ args.zip values) : (a.value θ == u) = true := by
  induction args generalizing values with
  | nil => simp at mem
  | cons b args ih =>
    cases values with
    | nil => simp at mem
    | cons v values =>
      rw [List.map_cons, List.cons_beq_cons, Bool.and_eq_true] at h
      rcases List.mem_cons.1 mem with hfirst | hrest
      · cases hfirst
        exact h.1
      · exact ih h.2 hrest

private theorem values_beq_of_zip {args : List Atom} (length : args.length = values.length)
    (h : ∀ a u, (a, u) ∈ args.zip values → (a.value θ == u) = true) :
    (args.map (Atom.value θ) == values) = true := by
  induction args generalizing values with
  | nil =>
    obtain rfl : values = [] := List.length_eq_zero_iff.1 length.symm
    rfl
  | cons a args ih =>
    cases values with
    | nil => simp at length
    | cons v values =>
      have hfirst := h a v List.mem_cons_self
      have hrest := ih (by simpa using length) fun b u mem => h b u (List.mem_cons_of_mem _ mem)
      rw [List.map_cons, List.cons_beq_cons, hfirst, hrest]
      rfl

private theorem exists_mem_zip {args : List Atom} (length : args.length = values.length) {a : Atom}
    (mem : a ∈ args) : ∃ u, (a, u) ∈ args.zip values := by
  obtain ⟨i, hi, rfl⟩ := List.mem_iff_getElem.1 mem
  have hvalues : i < values.length := length ▸ hi
  refine ⟨values[i], List.mem_iff_getElem.2 ⟨i, ?_, List.getElem_zip⟩⟩
  rw [List.length_zip]
  omega

theorem selects_iff : goal.selects values = true ↔
    (∀ a u, (a, u) ∈ goal.args.zip values → a.admits u = true) ∧
      ∀ a u, (a, u) ∈ goal.args.zip values → ∀ c w, (c, w) ∈ goal.args.zip values →
        a.sharesName c = true → (u == w) = true := by
  simp only [selects, List.all_eq_true, Bool.and_eq_true, Bool.or_eq_true, Bool.not_eq_true',
    Prod.forall]
  constructor
  · intro h
    refine ⟨fun a u mem => (h a u mem).1, fun a u mem c w other shared => ?_⟩
    exact ((h a u mem).2 c w other).resolve_left (by simp [shared])
  · rintro ⟨hadmits, hshared⟩ a u mem
    refine ⟨hadmits a u mem, fun c w other => ?_⟩
    cases hname : a.sharesName c with
    | false => exact .inl rfl
    | true => exact .inr (hshared a u mem c w other hname)

/-- A goal selects the tuples of values that it can take. -/
theorem selects_iff_exists_valuation (length : goal.arity = values.length) :
    goal.selects values = true ↔
      ∃ θ : Valuation, (goal.values θ == values) = true ∧ goal.Admits θ := by
  rw [selects_iff]
  constructor
  · rintro ⟨hadmits, hshared⟩
    let θ : Valuation := fun name =>
      (((goal.args.zip values).find? fun p => (Atom.var ⟨name, none⟩).sharesName p.1).map
        Prod.snd).getD default
    -- A variable takes the literal at its first place, which is that at its other places.
    have hplace (a : Atom) (u : Literal) (mem : (a, u) ∈ goal.args.zip values) :
        (a.value θ == u) = true := by
      cases a with
      | lit w => exact hadmits _ _ mem
      | var v =>
        cases hfind : (goal.args.zip values).find? fun p =>
            (Atom.var ⟨v.name, none⟩).sharesName p.1 with
        | none =>
          have hnone := List.find?_eq_none.1 hfind _ mem
          simp [Atom.sharesName] at hnone
        | some p =>
          have hθ : θ v.name = p.2 := by
            simp only [θ, hfind, Option.map_some, Option.getD_some]
          have hsame := List.find?_some hfind
          have hname : p.1.sharesName (.var v) = true := by
            cases hatom : p.1 with
            | lit w => simp [hatom, Atom.sharesName] at hsame
            | var w =>
              simp only [hatom, Atom.sharesName, decide_eq_true_eq] at hsame ⊢
              exact hsame.symm
          change (θ v.name == u) = true
          rw [hθ]
          exact hshared p.1 p.2 (List.mem_of_find?_eq_some hfind) _ _ mem hname
    refine ⟨θ, values_beq_of_zip length hplace, fun v hv c hc => ?_⟩
    obtain ⟨u, hu⟩ := exists_mem_zip length (mem_occurrences.1 hv)
    have hholds : c.holds u = true := by
      have hcondition := hadmits _ _ hu
      rw [Atom.admits, Option.all_eq_true] at hcondition
      exact hcondition c hc
    rwa [← Condition.holds_congr (BEq.refl c) (hplace _ _ hu)] at hholds
  · rintro ⟨θ, hvalues, hadmits⟩
    constructor
    · intro a u mem
      have hvalue := value_beq_of_mem_zip hvalues mem
      cases a with
      | lit w => exact hvalue
      | var v =>
        rw [Atom.admits, Option.all_eq_true]
        intro c hc
        have hv : v ∈ goal.occurrences := mem_occurrences.2 (List.of_mem_zip mem).1
        rw [← Condition.holds_congr (BEq.refl c) hvalue]
        exact hadmits v hv c hc
    · intro a u mem c w other shared
      have hleft := value_beq_of_mem_zip hvalues mem
      have hright := value_beq_of_mem_zip hvalues other
      cases a with
      | lit _ => simp [Atom.sharesName] at shared
      | var v =>
        cases c with
        | lit _ => simp [Atom.sharesName] at shared
        | var x =>
          have hname : v.name = x.name := of_decide_eq_true shared
          change (θ v.name == u) = true at hleft
          rw [hname] at hleft
          exact BEq.trans (BEq.symm hleft) hright

end Fact

variable {goal : Fact} {values : List Literal} {b : Bindings}

/-- Unified with a ground fact, a goal becomes that fact, up to equality of literals. -/
theorem Bindings.exists_substitute_eq
    (h : unify (.ofLiterals goal.functor values) goal = some b) :
    ∃ ws, b.substitute goal = .ofLiterals goal.functor ws ∧ (ws == values) = true := by
  have hground : (b.substitute goal).isGround = true := by
    refine Fact.isGround_iff.2 (List.eq_nil_iff_forall_not_mem.2 fun name hname => ?_)
    obtain ⟨other, hother, -⟩ :=
      mem_varNames_substitute.1 (mem_varNames_of_unify h hname)
    simp [Fact.varNames] at hother
  obtain ⟨ws, hws⟩ := Fact.isGround_iff_literals?.1 hground
  have hfact : b.substitute goal = .ofLiterals goal.functor ws := Fact.literals?_eq_some_iff.1 hws
  have hvalues := values_eq_of_unify h fun _ => default
  rw [Fact.values_ofLiterals, ← values_substitute, hfact, Fact.values_ofLiterals] at hvalues
  exact ⟨ws, hfact, BEq.symm hvalues⟩

/-- A goal unifies with the ground facts that it selects. -/
theorem unify_ofLiterals_iff (length : goal.arity = values.length) :
    (unify (.ofLiterals goal.functor values) goal).isSome = true ↔ goal.selects values = true := by
  rw [Fact.selects_iff_exists_valuation length, Option.isSome_iff_exists]
  constructor
  · rintro ⟨b, hb⟩
    let θ : Valuation := b.under fun _ => default
    have hvalues : (goal.values θ == values) = true := by
      have hequal := Bindings.values_eq_of_unify hb fun _ => default
      rw [Fact.values_ofLiterals] at hequal
      exact BEq.symm hequal
    obtain ⟨ws, hws, -⟩ := Bindings.exists_substitute_eq hb
    obtain ⟨-, -, -, hrespects⟩ := Bindings.unify_eq_some_iff.1 hb
    refine ⟨θ, hvalues, (Bindings.admits_under b goal _).2 ⟨hrespects, ?_⟩⟩
    rw [hws]
    exact Fact.admits_ofLiterals _ _ _
  · rintro ⟨θ, hvalues, hadmits⟩
    have hequal : ((Fact.ofLiterals goal.functor values).values θ == goal.values θ) = true := by
      rw [Fact.values_ofLiterals]
      exact BEq.symm hvalues
    have hfunctor : (Fact.ofLiterals goal.functor values).functor = goal.functor := rfl
    obtain ⟨b, hb, -⟩ :=
      Bindings.exists_unify hfunctor hequal (Fact.admits_ofLiterals _ _ _) hadmits
    exact ⟨b, hb⟩

/-! ### A fact and what it is renamed to -/

namespace Bindings

variable {f : Fact} {change : VarName → VarName}

/-- A fact respects bindings that take its variables to variables. -/
theorem respects_rename_of_resolve
    (h : ∀ name ∈ f.varNames, b.resolve (.var (change name)) = .var name) :
    b.respects (f.rename change) = true := by
  refine List.all_eq_true.2 fun a ha => ?_
  obtain ⟨c, hc, rfl⟩ := List.mem_map.1 ha
  cases c with
  | lit u => rfl
  | var v =>
    rw [Atom.rename, respectsAtom, h _ (Fact.mem_varNames_of_mem hc)]
    cases v.condition <;> rfl

theorem substitute_rename_of_resolve
    (h : ∀ name ∈ f.varNames, b.resolve (.var (change name)) = .var name) :
    b.substitute (f.rename change) = f := by
  have hatoms : (f.args.map (Atom.rename change)).map b.substituteAtom = f.args := by
    rw [List.map_map]
    refine (List.map_congr_left fun a ha => ?_).trans (List.map_id f.args)
    cases a with
    | lit u => rfl
    | var v =>
      change b.substituteAtom (.var { v with name := change v.name }) = .var v
      rw [substituteAtom, h _ (Fact.mem_varNames_of_mem ha)]
  rw [substitute, Fact.rename, hatoms]

/-- Bindings keep the old names, and they take a new name back to the old one or else leave it; names that
are done are taken back. -/
private def TakesBack (b : Bindings) (change : VarName → VarName) (names : List VarName)
    (done : VarName → Prop) : Prop :=
  ∀ name ∈ names, b.resolve (.var name) = .var name ∧
    (b.resolve (.var (change name)) = .var name ∨
      ¬ done name ∧ b.resolve (.var (change name)) = .var (change name))

variable {names : List VarName} {done done' : VarName → Prop}

private theorem TakesBack.mono (h : b.TakesBack change names done) (fewer : ∀ x, done' x → done x) :
    b.TakesBack change names done' := by
  intro name hname
  obtain ⟨hold, hnew⟩ := h name hname
  refine ⟨hold, hnew.imp_right fun ⟨hopen, hkept⟩ => ⟨fun hdone => hopen (fewer name hdone), hkept⟩⟩

/-- A new name that faces its old one is taken back to it. -/
private theorem TakesBack.exists_unifyTerms (h : b.TakesBack change names done)
    (injective : ∀ x ∈ names, ∀ y ∈ names, change x = change y → x = y)
    (apart : ∀ x ∈ names, ∀ y ∈ names, change x ≠ y) {name : VarName} (mem : name ∈ names) :
    ∃ b', b.unifyTerms (.var (change name)) (.var name) = some b' ∧
      b'.TakesBack change names fun x => x = name ∨ done x := by
  have hne : change name ≠ name := apart name mem name mem
  obtain ⟨hold, hback | ⟨-, hkept⟩⟩ := h name mem
  · refine ⟨b, by simp [unifyTerms, hold, hback], fun other hother => ?_⟩
    obtain ⟨hold', hnew'⟩ := h other hother
    refine ⟨hold', hnew'.imp_right fun hopen => ⟨?_, hopen.2⟩⟩
    rintro (rfl | hdone)
    · exact hne (Term.var.inj (hopen.2.symm.trans hback))
    · exact hopen.1 hdone
  · refine ⟨b.bind (change name) (.var name), by simp [unifyTerms, hold, hkept, hne],
      fun other hother => ?_⟩
    have hfollow : Binding.follow ⟨change name, .var name⟩ (.var other) = .var other :=
      if_neg (Ne.symm (apart name mem other hother))
    obtain ⟨hold', hnew'⟩ := h other hother
    rw [resolve_bind, resolve_bind, hold']
    refine ⟨hfollow, ?_⟩
    rcases hnew' with hback' | ⟨hopen, hkept'⟩
    · exact .inl (hback' ▸ hfollow)
    · rw [hkept', Binding.follow]
      by_cases hsame : change other = change name
      · rw [if_pos hsame, injective other hother name mem hsame]
        exact .inl rfl
      · rw [if_neg hsame]
        refine .inr ⟨?_, rfl⟩
        rintro (rfl | hdone)
        · exact hsame rfl
        · exact hopen hdone

private theorem TakesBack.exists_unifyArgs
    (injective : ∀ x ∈ names, ∀ y ∈ names, change x = change y → x = y)
    (apart : ∀ x ∈ names, ∀ y ∈ names, change x ≠ y) {args : List Atom}
    (mem : ∀ v, Atom.var v ∈ args → v.name ∈ names) (h : b.TakesBack change names done) :
    ∃ b', b.unifyArgs (args.map (Atom.rename change)) args = some b' ∧
      b'.TakesBack change names fun x => done x ∨ ∃ v, Atom.var v ∈ args ∧ v.name = x := by
  induction args generalizing b done with
  | nil => exact ⟨b, rfl, h.mono (by simp)⟩
  | cons a args ih =>
    have hrest : ∀ v, Atom.var v ∈ args → v.name ∈ names :=
      fun v hv => mem v (List.mem_cons_of_mem a hv)
    rw [List.map_cons, unifyArgs]
    cases a with
    | lit u =>
      have hterms : b.unifyTerms (Atom.rename change (.lit u)).term (Atom.lit u).term = some b := by
        simp [unifyTerms, Atom.rename, Atom.term]
      obtain ⟨b', hb', htakes⟩ := ih hrest h
      rw [hterms]
      exact ⟨b', hb', htakes.mono (by simp)⟩
    | var v =>
      obtain ⟨b₁, hterms, htakes⟩ := h.exists_unifyTerms injective apart (mem v List.mem_cons_self)
      obtain ⟨b', hb', htakes'⟩ := ih hrest htakes
      refine ⟨b', ?_, htakes'.mono ?_⟩
      · change (b.unifyTerms (.var (change v.name)) (.var v.name)).bind _ = some b'
        rw [hterms, Option.bind_some, hb']
      · rintro x (hdone | ⟨w, hw, rfl⟩)
        · exact .inl (.inr hdone)
        · rcases List.mem_cons.1 hw with hfirst | hw
          · cases hfirst
            exact .inl (.inl rfl)
          · exact .inr ⟨w, hw, rfl⟩

/-- A fact unifies with what it is renamed to one to one, whatever its conditions are, and the new names
are taken back to the old ones. -/
theorem exists_unify_rename
    (injective : ∀ x ∈ f.varNames, ∀ y ∈ f.varNames, change x = change y → x = y)
    (apart : ∀ x ∈ f.varNames, ∀ y ∈ f.varNames, change x ≠ y) :
    ∃ b, unify (f.rename change) f = some b ∧ ∀ name ∈ f.varNames,
      b.resolve (.var name) = .var name ∧ b.resolve (.var (change name)) = .var name := by
  have hempty : (∅ : Bindings).TakesBack change f.varNames fun _ => False :=
    fun _ _ => ⟨rfl, .inr ⟨id, rfl⟩⟩
  obtain ⟨b, hargs, htakes⟩ := hempty.exists_unifyArgs injective apart fun v hv =>
    Fact.mem_varNames_of_mem hv
  have hnames : ∀ name ∈ f.varNames,
      b.resolve (.var name) = .var name ∧ b.resolve (.var (change name)) = .var name := by
    intro name hname
    obtain ⟨hold, hback | ⟨hopen, -⟩⟩ := htakes name hname
    · exact ⟨hold, hback⟩
    · exact absurd (.inr (Fact.mem_varNames.1 hname)) hopen
  refine ⟨b, unify_eq_some_iff.2 ⟨⟨rfl, Fact.arity_rename change f⟩, hargs, ?_, ?_⟩, hnames⟩
  · exact respects_rename_of_resolve fun name hname => (hnames name hname).2
  · rw [← f.rename_id]
    exact respects_rename_of_resolve fun name hname => (hnames name hname).1

end Bindings

end Horn
