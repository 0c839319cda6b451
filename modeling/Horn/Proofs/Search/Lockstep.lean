import Horn.Proofs.Fact.Alpha
import Horn.Proofs.Search.Pending
import Horn.Proofs.Search.Trial

/-!
Expansions in lockstep.

Solutions that correspond are expanded by the same goal, with clauses that correspond once their
variables are renamed, and each attempt comes out alike on both sides:
`Correspondence.OfSolutionAt.expand`. Needed is that the built-ins which are called come to values
that correspond, that the memo returns tuples that correspond, and that the variables of both
solutions are older than the fresh ones. The memo asks for one thing more: it keeps discharged goals
by their depths, so goals that correspond have to be equally deep as soon as something is memoized.
Without memo that falls away: `Correspondence.OfSolution.expand`.
-/

set_option autoImplicit false
set_option relaxedAutoImplicit false

namespace Horn

namespace Correspondence

open Search (Setting Ledger Solution Goal Attempt)

variable {m : Correspondence} {deep : Prop}

/-! ### Depths -/

/-- Goals that correspond, and are equally deep if depths matter. -/
structure OfGoalAt (m : Correspondence) (deep : Prop) (g h : Goal) : Prop extends m.OfGoal g h where
  depth : deep → g.depth = h.depth

/-- Solutions that correspond goal by goal, with equal depths if these matter. -/
abbrev OfSolutionAt (m : Correspondence) (deep : Prop) : Solution → Solution → Prop :=
  List.Forall₂ (m.OfGoalAt deep)

theorem OfSolutionAt.ofSolution {a b : Solution} (h : m.OfSolutionAt deep a b) : m.OfSolution a b :=
  h.imp fun _ _ hg => hg.toOfGoal

/-- If depths do not matter, nothing is asked of them. -/
theorem OfSolution.at {a b : Solution} (h : m.OfSolution a b) : m.OfSolutionAt False a b :=
  h.imp fun _ _ hg => ⟨hg, False.elim⟩

/-! ### Fresh names -/

/-- The same correspondence of names below two bounds, and beside it that of the fresh numbers from
two starts on. -/
def renewed (m : Correspondence) {bound bound' start start' : Nat} (le : bound ≤ start)
    (le' : bound' ≤ start') : Correspondence where
  names x y := (m.names x y ∧ x.Below bound ∧ y.Below bound') ∨
    ∃ i, x = .fresh (start + i) ∧ y = .fresh (start' + i)
  literals := m.literals
  functional := by
    rintro x y z (⟨hxy, hx, -⟩ | ⟨i, rfl, rfl⟩) (⟨hxz, hx', -⟩ | ⟨j, hj, rfl⟩)
    · exact m.functional hxy hxz
    · subst hj
      exact absurd (show start + j < bound from hx) (by omega)
    · exact absurd (show start + i < bound from hx') (by omega)
    · obtain rfl : i = j := by simpa using hj
      rfl
  injective := by
    rintro x y z (⟨hxz, -, hz⟩ | ⟨i, rfl, rfl⟩) (⟨hyz, -, hz'⟩ | ⟨j, rfl, hj⟩)
    · exact m.injective hxz hyz
    · subst hj
      exact absurd (show start' + j < bound' from hz) (by omega)
    · exact absurd (show start' + i < bound' from hz') (by omega)
    · obtain rfl : i = j := by simpa using hj
      rfl
  identical := m.identical
  equal := m.equal

variable {bound bound' start start' : Nat} {le : bound ≤ start} {le' : bound' ≤ start'}

private theorem OfAtom.renewed {a b : Atom} (h : m.OfAtom a b)
    (ha : ∀ v, a = .var v → v.name.Below bound) (hb : ∀ w, b = .var w → w.name.Below bound') :
    (m.renewed le le').OfAtom a b := by
  cases h with
  | lit literals => exact .lit literals
  | @var v w names conditions =>
    refine .var (.inl ⟨names, ha v rfl, hb w rfl⟩) ?_
    generalize v.condition = condition at conditions
    generalize w.condition = condition' at conditions
    cases conditions with
    | none => exact .none
    | some h => exact .some ⟨h.operator, h.operand⟩

theorem OfFact.renewed {f g : Fact} (h : m.OfFact f g) (hf : ∀ name ∈ f.varNames, name.Below bound)
    (hg : ∀ name ∈ g.varNames, name.Below bound') : (m.renewed le le').OfFact f g := by
  refine ⟨h.functor, ?_⟩
  have hargs := h.args
  have hf' (v : Variable) (hv : Atom.var v ∈ f.args) := hf _ (Fact.mem_varNames_of_mem hv)
  have hg' (w : Variable) (hw : Atom.var w ∈ g.args) := hg _ (Fact.mem_varNames_of_mem hw)
  clear h hf hg
  generalize f.args = as at hargs hf'
  generalize g.args = bs at hargs hg'
  induction hargs with
  | nil => exact .nil
  | cons first _ ih =>
    refine .cons (first.renewed ?_ ?_) (ih (fun v hv => hf' v (List.mem_cons_of_mem _ hv))
      fun w hw => hg' w (List.mem_cons_of_mem _ hw))
    · rintro v rfl
      exact hf' v List.mem_cons_self
    · rintro w rfl
      exact hg' w List.mem_cons_self

theorem OfSolutionAt.renewed {a b : Solution} (h : m.OfSolutionAt deep a b)
    (ha : ∀ g ∈ a, ∀ name ∈ g.fact.varNames, name.Below bound)
    (hb : ∀ g ∈ b, ∀ name ∈ g.fact.varNames, name.Below bound') :
    (m.renewed le le').OfSolutionAt deep a b := by
  induction h with
  | nil => exact .nil
  | cons first _ ih =>
    rw [List.forall_mem_cons] at ha hb
    exact .cons ⟨⟨first.resolved, first.fact.renewed ha.1 hb.1⟩, first.depth⟩ (ih ha.2 hb.2)

/-- Renamed clauses correspond, whatever the first fresh number is on each side. -/
theorem ofClauses_renamed (m : Correspondence) {next next' : Nat} (cs : List Clause)
    (le : bound ≤ next) (le' : bound' ≤ next') :
    List.Forall₂ (fun c d => ∃ (start start' : Nat) (le : bound ≤ start) (le' : bound' ≤ start'),
        (m.renewed le le').OfFact c.head d.head ∧
          List.Forall₂ (m.renewed le le').OfFact c.body d.body)
      (Search.renameClauses next cs).1 (Search.renameClauses next' cs).1 := by
  induction cs generalizing next next' with
  | nil => exact .nil
  | cons c rest ih =>
    have hfact (f : Fact) : (m.renewed le le').OfFact (f.rename (c.names.fresh next))
        (f.rename (c.names.fresh next')) :=
      ofFact_rename fun _ _ => .inr ⟨_, rfl, rfl⟩
    refine .cons ⟨next, next', le, le', hfact c.head, ?_⟩
      (ih (Nat.le_trans le (Nat.le_add_right _ _)) (Nat.le_trans le' (Nat.le_add_right _ _)))
    change List.Forall₂ _ (c.body.map _) (c.body.map _)
    rw [List.forall₂_map_left_iff, List.forall₂_map_right_iff, List.forall₂_same]
    exact fun f _ => hfact f

/-! ### Choosing -/

theorem OfFact.isGround {f g : Fact} (h : m.OfFact f g) : f.isGround = g.isGround := by
  have hlength := h.varNames.length_eq
  rw [Bool.eq_iff_iff, Fact.isGround_iff, Fact.isGround_iff, ← List.length_eq_zero_iff,
    ← List.length_eq_zero_iff, hlength]

private theorem OfAtom.isConstant {a b : Atom} (h : m.OfAtom a b) : a.isConstant = b.isConstant := by
  cases h <;> rfl

private theorem haveInputs_eq {as bs : List Atom} (h : List.Forall₂ m.OfAtom as bs) :
    Search.haveInputs as = Search.haveInputs bs := by
  induction h with
  | nil => rfl
  | cons first rest ih =>
    cases rest with
    | nil => rfl
    | cons second rest => exact congrArg₂ (· && ·) first.isConstant ih

theorem OfFact.isBuiltin {f g : Fact} (h : m.OfFact f g) (s : Setting) :
    s.isBuiltin f = s.isBuiltin g := by
  rw [Setting.isBuiltin, Setting.isBuiltin, h.functor, h.arity]

theorem OfFact.isDefined {f g : Fact} (h : m.OfFact f g) (s : Setting) :
    s.isDefined f = s.isDefined g := by
  rw [Setting.isDefined, Setting.isDefined, h.isBuiltin s, h.key]

private theorem findIdx?_eq {α : Type} {R : α → α → Prop} {p : α → Bool}
    (each : ∀ a b, R a b → p a = p b) {as bs : List α} (h : List.Forall₂ R as bs) :
    as.findIdx? p = bs.findIdx? p := by
  induction h with
  | nil => rfl
  | cons first _ ih => rw [List.findIdx?_cons, List.findIdx?_cons, each _ _ first, ih]

/-- Solutions that correspond are expanded at the same place. -/
theorem OfSolution.choose {a b : Solution} (h : m.OfSolution a b) (s : Setting) :
    Search.choose s a = Search.choose s b := by
  rw [Search.choose, Search.choose]
  rw [findIdx?_eq (fun g g' hg => ?_) h, findIdx?_eq (fun g g' hg => ?_) h]
  · rw [hg.resolved, hg.fact.isBuiltin s]
  · rw [hg.resolved, hg.fact.isBuiltin s, Search.isEvaluable, Search.isEvaluable,
      haveInputs_eq hg.fact.args]

theorem OfSolutionAt.exists_getElem? {a b : Solution} (h : m.OfSolutionAt deep a b) {position : Nat}
    {g : Goal} (hg : a[position]? = some g) : ∃ g', b[position]? = some g' ∧ m.OfGoalAt deep g g' := by
  obtain ⟨hlt, rfl⟩ := List.getElem?_eq_some_iff.1 hg
  exact ⟨_, List.getElem?_eq_getElem (h.length_eq ▸ hlt), h.get hlt (h.length_eq ▸ hlt)⟩

/-! ### Discharging -/

private theorem ofGoalAt_substitute {b b' : Bindings} (hb : m.OfBindings b b') {g g' : Goal}
    (hg : m.OfGoalAt deep g g') : m.OfGoalAt deep (g.substitute b) (g'.substitute b') := by
  rw [Goal.substitute_eq, Goal.substitute_eq]
  exact ⟨⟨hg.resolved, hb.substitute hg.fact⟩, hg.depth⟩

private theorem OfSolutionAt.discharge {b b' : Bindings} (hb : m.OfBindings b b')
    {body body' : List Fact} (hbody : List.Forall₂ m.OfFact body body') {solution solution' : Solution}
    (h : m.OfSolutionAt deep solution solution') (position : Nat) :
    m.OfSolutionAt deep (Search.discharge b body position solution)
      (Search.discharge b' body' position solution') := by
  induction h generalizing position with
  | nil => cases position <;> exact .nil
  | @cons g g' _ _ first rest ih =>
    have hfirst := ofGoalAt_substitute hb first
    cases position with
    | zero =>
      rw [Search.discharge, Search.discharge, Search.substituteAll_eq, Search.substituteAll_eq]
      refine .cons ⟨⟨rfl, hfirst.fact⟩, hfirst.depth⟩ (List.rel_append ?_ ?_)
      · exact List.rel_map
          (fun _ _ hf => ⟨⟨rfl, hf⟩, fun hdeep => congrArg (· + 1) (first.depth hdeep)⟩) hbody
      · exact List.rel_map (fun _ _ hg => ofGoalAt_substitute hb hg) rest
    | succ position => exact .cons hfirst (ih position)

private theorem OfSolutionAt.leastDepth (hdeep : deep) {a b : Solution} (h : m.OfSolutionAt deep a b) :
    Search.leastDepth a = Search.leastDepth b := by
  induction h with
  | nil => rfl
  | cons first _ ih =>
    rw [Search.leastDepth, Search.leastDepth, first.resolved, first.depth hdeep, ih]

/-- Whether an expansion is proven, where it matters. -/
private theorem OfGoalAt.pendingBelow {memoized : String → Bool}
    (matters : ∀ key, memoized key = true → deep) {g g' : Goal} (hg : m.OfGoalAt deep g g')
    {behind behind' : Solution} (h : m.OfSolutionAt deep behind behind') :
    memoized g.key = memoized g'.key ∧ (memoized g'.key = true →
      Search.pendingBelow g.depth behind = Search.pendingBelow g'.depth behind') := by
  have hkey : g.key = g'.key := hg.fact.key
  refine ⟨by rw [hkey], fun hmemo => ?_⟩
  have hdeep := matters _ hmemo
  rw [Search.pendingBelow_eq, Search.pendingBelow_eq, hg.depth hdeep,
    OfSolutionAt.leastDepth hdeep h]

private theorem OfSolutionAt.dropDischarged {memoized : String → Bool}
    (matters : ∀ key, memoized key = true → deep) {a b : Solution} (h : m.OfSolutionAt deep a b) :
    m.OfSolutionAt deep (Search.dropDischarged memoized a) (Search.dropDischarged memoized b) := by
  induction h with
  | nil => exact .nil
  | @cons g g' behind behind' first rest ih =>
    obtain ⟨hkey, hbelow⟩ := first.pendingBelow matters rest
    have hawaited : Search.isAwaited memoized g behind = Search.isAwaited memoized g' behind' := by
      rw [Search.isAwaited, Search.isAwaited, hkey]
      cases hmemo : memoized g'.key with
      | false => rfl
      | true => rw [hbelow hmemo]
    rw [Search.dropDischarged, Search.dropDischarged, first.resolved, hawaited]
    split
    · exact .cons first ih
    · exact ih

private theorem OfSolutionAt.provenGoals {memoized : String → Bool}
    (matters : ∀ key, memoized key = true → deep) {a b : Solution} (h : m.OfSolutionAt deep a b) :
    List.Forall₂ m.OfFact (Search.provenGoals memoized a) (Search.provenGoals memoized b) := by
  induction h with
  | nil => exact .nil
  | @cons g g' behind behind' first rest ih =>
    obtain ⟨hkey, hbelow⟩ := first.pendingBelow matters rest
    rw [Search.provenGoals, Search.provenGoals, first.resolved, hkey, first.fact.isGround]
    cases hmemo : memoized g'.key with
    | false => simpa using ih
    | true =>
      rw [hbelow hmemo]
      split
      · exact .cons first.fact ih
      · exact ih

private theorem OfSolutionAt.compact {memoized : String → Bool}
    (matters : ∀ key, memoized key = true → deep) {a b : Solution} (h : m.OfSolutionAt deep a b) :
    m.OfSolutionAt deep (Search.compact memoized a).1 (Search.compact memoized b).1 ∧
      List.Forall₂ m.OfFact (Search.compact memoized a).2 (Search.compact memoized b).2 := by
  cases h with
  | nil => exact ⟨.nil, .nil⟩
  | cons first rest =>
    rw [Search.compact_cons, Search.compact_cons]
    exact ⟨.cons first (OfSolutionAt.dropDischarged matters rest),
      OfSolutionAt.provenGoals matters rest⟩

theorem OfSolution.hasPending {a b : Solution} (h : m.OfSolution a b) :
    Search.hasPending a = Search.hasPending b := by
  rw [Search.hasPending, Search.hasPending]
  induction h with
  | nil => rfl
  | cons first _ ih => rw [List.any_cons, List.any_cons, first.resolved, ih]

theorem OfSolution.isAnswer {a b : Solution} (h : m.OfSolution a b) :
    Search.isAnswer a = Search.isAnswer b := by
  cases h with
  | nil => rfl
  | cons first _ => exact first.fact.isGround

/-! ### Attempts -/

/-- Attempts that come out alike. -/
inductive OfAttempt (m : Correspondence) (deep : Prop) : Attempt → Attempt → Prop
  | rejected : OfAttempt m deep .rejected .rejected
  | undefined (key : String) : OfAttempt m deep (.undefined key) (.undefined key)
  | discharged {proven proven' : List Fact} {child child' : Option Solution}
      (facts : List.Forall₂ m.OfFact proven proven')
      (made : Option.Rel (m.OfSolutionAt deep) child child') :
      OfAttempt m deep (.discharged proven child) (.discharged proven' child')

theorem OfAttempt.child? {x y : Attempt} (h : m.OfAttempt deep x y) :
    Option.Rel (m.OfSolutionAt deep) x.child? y.child? := by
  cases h with
  | rejected => exact .none
  | undefined key => exact .none
  | discharged _ made => exact made

private theorem all_eq {α : Type} {R : α → α → Prop} {p q : α → Bool}
    (each : ∀ a b, R a b → p a = q b) {as bs : List α} (h : List.Forall₂ R as bs) :
    as.all p = bs.all q := by
  induction h with
  | nil => rfl
  | cons first _ ih => rw [List.all_cons, List.all_cons, each _ _ first, ih]

private theorem find?_rel {α : Type} {R : α → α → Prop} {p : α → Bool}
    (each : ∀ a b, R a b → p a = p b) {as bs : List α} (h : List.Forall₂ R as bs) :
    Option.Rel R (as.find? p) (bs.find? p) := by
  induction h with
  | nil => exact .none
  | @cons a b _ _ first _ ih =>
    rw [List.find?_cons, List.find?_cons, each a b first]
    cases p b with
    | true => exact .some first
    | false => exact ih

private theorem OfSolutionAt.derive {memoized : String → Bool}
    (matters : ∀ key, memoized key = true → deep) {b b' : Bindings} (hb : m.OfBindings b b')
    (s : Setting) {a a' : Solution} (h : m.OfSolutionAt deep a a') (position : Nat)
    {body body' : List Fact} (hbody : List.Forall₂ m.OfFact body body') :
    m.OfAttempt deep (Search.derive s memoized a position b body)
      (Search.derive s memoized a' position b' body') := by
  have hrespected : body.all b.respects = body'.all b'.respects :=
    all_eq (fun _ _ hfg => hb.respects hfg) hbody
  have hfacts : List.Forall₂ m.OfFact (body.map b.substitute) (body'.map b'.substitute) :=
    List.rel_map (fun _ _ hf => hb.substitute hf) hbody
  have hundefined := find?_rel (p := fun f => !s.isDefined f)
    (fun _ _ hf => by rw [hf.isDefined s]) hfacts
  have hgoals : a.all (fun g => b.respects g.fact) = a'.all fun g => b'.respects g.fact :=
    all_eq (fun _ _ hg => hb.respects hg.fact) h
  obtain ⟨hchild, hproven⟩ := (h.discharge hb hfacts position).compact matters
  rw [Search.derive, Search.derive, hrespected]
  cases body'.all b'.respects with
  | false => exact .rejected
  | true =>
    simp only [if_true]
    generalize List.find? _ (body.map b.substitute) = found at hundefined
    generalize List.find? _ (body'.map b'.substitute) = found' at hundefined
    cases hundefined with
    | some hf =>
      simp only [hf.key]
      exact .undefined _
    | none =>
      simp only [hgoals]
      cases a'.all fun g => b'.respects g.fact with
      | false => exact .rejected
      | true =>
        simp only [if_true, hchild.ofSolution.hasPending, hchild.ofSolution.isAnswer]
        refine .discharged hproven ?_
        split
        · exact .some hchild
        · exact .none

/-- Attempts with facts that correspond come out alike. -/
theorem OfSolutionAt.attempt {memoized : String → Bool}
    (matters : ∀ key, memoized key = true → deep) (s : Setting) {a a' : Solution}
    (h : m.OfSolutionAt deep a a') (position : Nat) {goal goal' head head' : Fact}
    (hgoal : m.OfFact goal goal') (hhead : m.OfFact head head') {body body' : List Fact}
    (hbody : List.Forall₂ m.OfFact body body') :
    m.OfAttempt deep (Search.attempt s memoized a position goal head body)
      (Search.attempt s memoized a' position goal' head' body') := by
  rw [Search.attempt, Search.attempt]
  have hunify := Correspondence.unify hhead hgoal
  generalize Horn.unify head goal = found at hunify
  generalize Horn.unify head' goal' = found' at hunify
  cases hunify with
  | none => exact .rejected
  | some hb => exact h.derive matters hb s position hbody

/-! ### Expanding -/

theorem ofFact_ofLiterals (functor : String) {us vs : List Literal}
    (h : List.Forall₂ m.literals us vs) :
    m.OfFact (Fact.ofLiterals functor us) (Fact.ofLiterals functor vs) :=
  ⟨rfl, List.rel_map (fun _ _ huv => .lit huv) h⟩

/-- The inputs of goals that correspond do so. -/
theorem OfFact.inputsOf {f g : Fact} (h : m.OfFact f g) :
    List.Forall₂ m.literals (Search.inputsOf f) (Search.inputsOf g) := by
  have hinit : List.Forall₂ m.OfAtom f.args.dropLast g.args.dropLast := by
    rw [List.dropLast_eq_take, List.dropLast_eq_take, h.args.length_eq]
    exact List.forall₂_take _ h.args
  refine List.rel_filterMap (fun a b hab => ?_) hinit
  cases hab with
  | lit literals => exact .some literals
  | var _ _ => exact .none

private theorem mapM_literal? {as bs : List Atom} (h : List.Forall₂ m.OfAtom as bs) :
    Option.Rel (List.Forall₂ m.literals) (as.mapM Atom.literal?) (bs.mapM Atom.literal?) := by
  induction h with
  | nil => exact .some .nil
  | @cons _ _ as bs first _ ih =>
    rw [List.mapM_cons, List.mapM_cons]
    generalize as.mapM Atom.literal? = us at ih
    generalize bs.mapM Atom.literal? = vs at ih
    cases first with
    | var _ _ => exact .none
    | lit literals =>
      cases ih with
      | none => exact .none
      | some hrest => exact .some (.cons literals hrest)

/-- The literals of facts that correspond do so. -/
theorem OfFact.literals? {f g : Fact} (h : m.OfFact f g) :
    Option.Rel (List.Forall₂ m.literals) f.literals? g.literals? :=
  mapM_literal? h.args

/-- The tuples of solutions that correspond do so. -/
theorem OfSolution.tuple? {a b : Solution} (h : m.OfSolution a b) :
    Option.Rel (List.Forall₂ m.literals) (Search.Progress.tuple? a) (Search.Progress.tuple? b) := by
  cases h with
  | nil => exact .none
  | cons first _ => exact first.fact.literals?

/-- The values of built-in goals that correspond do so, and the tuples recorded for others. -/
structure Answering (m : Correspondence) (s : Setting) (l l' : Ledger) (g g' : Fact) : Prop where
  value : s.isBuiltin g = true → Search.isEvaluable g = true →
    Option.Rel m.literals (Search.value? s l g) (Search.value? s l' g')
  recorded : Option.Rel (List.Forall₂ m.literals) (Search.cachedTuple? l g)
    (Search.cachedTuple? l' g')

/-- The clauses with which goals that correspond are tried do so, each pair of them in its own way. -/
private theorem OfSolutionAt.clausesFor {s : Setting} {l l' : Ledger} {a a' : Solution}
    (h : m.OfSolutionAt deep a a') (ha : ∀ g ∈ a, ∀ name ∈ g.fact.varNames, name.Below l.nextVar)
    (ha' : ∀ g ∈ a', ∀ name ∈ g.fact.varNames, name.Below l'.nextVar) {g g' : Goal}
    (hg : m.OfGoal g g') (mem : g ∈ a) (mem' : g' ∈ a')
    (ready : s.isBuiltin g.fact = true → Search.isEvaluable g.fact = true)
    (answering : m.Answering s l l' g.fact g'.fact) :
    List.Forall₂ (fun c d => ∃ k : Correspondence, k.literals = m.literals ∧
        k.OfSolutionAt deep a a' ∧ k.OfFact g.fact g'.fact ∧ k.OfFact c.1 d.1 ∧
          List.Forall₂ k.OfFact c.2 d.2)
      (Search.clausesFor s l g.fact) (Search.clausesFor s l' g'.fact) := by
  rw [Search.clausesFor, Search.clausesFor, ← hg.fact.isBuiltin s, ← hg.fact.functor]
  cases hbuiltin : s.isBuiltin g.fact with
  | true =>
    have hvalue := answering.value hbuiltin (ready hbuiltin)
    simp only [if_true]
    generalize Search.value? s l g.fact = value at hvalue
    generalize Search.value? s l' g'.fact = value' at hvalue
    cases hvalue with
    | none => exact .nil
    | some houtput =>
      have hhead := ofFact_ofLiterals g.fact.functor
        (List.rel_append hg.fact.inputsOf (.cons houtput .nil))
      exact .cons ⟨m, rfl, h, hg.fact, hhead, .nil⟩ .nil
  | false =>
    have hrecorded := answering.recorded
    simp only [Bool.false_eq_true, if_false]
    generalize Search.cachedTuple? l g.fact = values at hrecorded
    generalize Search.cachedTuple? l' g'.fact = values' at hrecorded
    cases hrecorded with
    | some hvalues =>
      exact .cons ⟨m, rfl, h, hg.fact, ofFact_ofLiterals g.fact.functor hvalues, .nil⟩ .nil
    | none =>
      -- The fresh numbers need not agree, so names are paired off anew for each clause.
      simp only [Search.renamedClauses, ← hg.fact.key]
      refine List.rel_map ?_ (m.ofClauses_renamed (s.program.candidates g.fact.key)
        (Nat.le_refl l.nextVar) (Nat.le_refl l'.nextVar))
      rintro c d ⟨start, start', le, le', hhead, hbody⟩
      exact ⟨m.renewed le le', rfl, h.renewed ha ha', hg.fact.renewed (ha g mem) (ha' g' mem'),
        hhead, hbody⟩

/-- Solutions that correspond are expanded by goals that correspond, or both not at all, and the
attempts come out alike. -/
theorem OfSolutionAt.expand {s : Setting} {l l' : Ledger}
    (enabled : l.memo.isEnabled = l'.memo.isEnabled)
    (matters : ∀ key, l.memo.isEnabled key = true → deep) {a a' : Solution}
    (h : m.OfSolutionAt deep a a') (ha : ∀ g ∈ a, ∀ name ∈ g.fact.varNames, name.Below l.nextVar)
    (ha' : ∀ g ∈ a', ∀ name ∈ g.fact.varNames, name.Below l'.nextVar)
    (answering : ∀ g ∈ a, ∀ g' ∈ a', m.OfGoal g g' → m.Answering s l l' g.fact g'.fact) :
    (Search.expand s l a = ([], l) ∧ Search.expand s l' a' = ([], l')) ∨
      ∃ g ∈ a, ∃ g' ∈ a', ∃ (start start' : Ledger) (as as' : List Attempt), m.OfGoal g g' ∧
        (Search.ledgerFor s l g.fact).Agrees start ∧ (Search.ledgerFor s l' g'.fact).Agrees start' ∧
        Search.expand s l a = start.enterAll as ∧ Search.expand s l' a' = start'.enterAll as' ∧
        List.Forall₂ (fun x y => ∃ k : Correspondence, k.literals = m.literals ∧ k.OfAttempt deep x y)
          as as' := by
  rcases Search.expand_pair l l' (h.ofSolution.choose s) with
    hnone | ⟨position, g, g', start, start', hg, hg', hready, hstart, hstart', hleft, hright⟩
  · exact .inl hnone
  · obtain ⟨other, hother, hgoal⟩ := h.exists_getElem? hg
    obtain rfl : g' = other := Option.some.inj (hg'.symm.trans hother)
    have hmem := List.mem_of_getElem? hg
    have hmem' := List.mem_of_getElem? hg'
    have hclauses := h.clausesFor ha ha' hgoal.toOfGoal hmem hmem' hready
      (answering g hmem g' hmem' hgoal.toOfGoal)
    refine .inr ⟨g, hmem, g', hmem', start, start', _, _, hgoal.toOfGoal, hstart, hstart', hleft,
      hright, ?_⟩
    rw [← enabled]
    refine List.rel_map ?_ hclauses
    rintro c d ⟨k, hk, hsolution, hfact, hhead, hbody⟩
    exact ⟨k, hk, hsolution.attempt matters s position hfact hhead hbody⟩

/-- A solution as a solution corresponds to it, by some correspondence with the same literals. -/
def Matches (m : Correspondence) (a b : Solution) : Prop :=
  ∃ m' : Correspondence, m'.literals = m.literals ∧ m'.OfSolution a b

/-- Without memo, solutions that correspond are expanded into solutions that correspond. -/
theorem OfSolution.expand {s : Setting} {l l' : Ledger} (unmemoized : l.memo.enabled = [])
    (unmemoized' : l'.memo.enabled = []) {a a' : Solution} (h : m.OfSolution a a')
    (ha : ∀ g ∈ a, ∀ name ∈ g.fact.varNames, name.Below l.nextVar)
    (ha' : ∀ g ∈ a', ∀ name ∈ g.fact.varNames, name.Below l'.nextVar)
    (values : ∀ g ∈ a, ∀ g' ∈ a', m.OfGoal g g' → s.isBuiltin g.fact = true →
      Search.isEvaluable g.fact = true → ∀ ambient ambient', Option.Rel m.literals
        (s.registry.evaluate g.fact.functor (Search.inputsOf g.fact) ambient).1
        (s.registry.evaluate g.fact.functor (Search.inputsOf g'.fact) ambient').1) :
    List.Forall₂ m.Matches (Search.expand s l a).1 (Search.expand s l' a').1 := by
  have hanswering : ∀ g ∈ a, ∀ g' ∈ a', m.OfGoal g g' → m.Answering s l l' g.fact g'.fact := by
    intro g hg g' hg' hgoal
    constructor
    · intro hbuiltin hready
      have hvalue := values g hg g' hg' hgoal hbuiltin hready
      rw [Search.value?, Search.value?, ← hgoal.fact.functor]
      exact hvalue _ _
    · rw [Search.cachedTuple?_of_unmemoized unmemoized, Search.cachedTuple?_of_unmemoized unmemoized']
      exact .none
  have hnothing : ∀ key, l.memo.isEnabled key = true → False := by
    simp [Search.isEnabled_of_unmemoized unmemoized]
  rcases h.at.expand (by rw [Search.isEnabled_of_unmemoized unmemoized, Search.isEnabled_of_unmemoized unmemoized']) hnothing ha ha'
    hanswering with ⟨hleft, hright⟩ | ⟨_, _, _, _, _, _, as, as', -, -, -, hleft, hright, hattempts⟩
  · rw [hleft, hright]
    exact .nil
  · rw [hleft, hright]
    refine List.rel_filterMap ?_ hattempts
    rintro x y ⟨k, hk, hattempt⟩
    have hchild := hattempt.child?
    generalize x.child? = child at hchild
    generalize y.child? = child' at hchild
    cases hchild with
    | none => exact .none
    | some hsolution => exact .some ⟨k, hk, hsolution.ofSolution⟩

end Correspondence

end Horn
