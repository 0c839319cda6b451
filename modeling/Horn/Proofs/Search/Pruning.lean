import Horn.Proofs.Search.Lockstep
import Horn.Proofs.Search.Passes

/-!
The search loop against the same loop without pruning.

`runAll` keeps every solution it makes, also those that look like earlier ones. Each solution there is
a twin of one that the search loop keeps, up to the names of variables, or it is the shadow of one that
was made before it: `Shadows`. What a shadow is expanded into are shadows again, so they add neither
answers nor their order, and the search loop comes to its end no later: `Paired.run`.
-/

set_option autoImplicit false
set_option relaxedAutoImplicit false

namespace Horn.Search

open Builtin (Registry Ambient)

namespace Progress

/-- Expands one solution and takes in its children, all of them; meanwhile time goes by. -/
def advanceAll (s : Setting) (p : Progress) (solution : Solution) (behind : Queue (Nat × Solution)) :
    Progress :=
  let ledger := p.ledger.count fun c => { c with iterations := c.iterations + 1 }
  let (children, ledger) := expand s ledger solution
  let ledger := ledger.spend (passEffort + childrenEffort children)
  children.foldl file { p with ledger, opened := behind }

/-- The solutions that wait to be expanded, in order. -/
def waiting (p : Progress) : List Solution :=
  p.opened.toList.map Prod.snd

end Progress

/-- Runs the loop without pruning until it is at its end or a deadline has passed, so many passes at
most. -/
def runAll (s : Setting) (stopEarly : Bool) (deadline : Option Nat) :
    (passes : Nat) → Progress → Outcome
  | 0, p => .timedOut p
  | passes + 1, p =>
    if p.isLate deadline then .timedOut p
    else
      match p.next? stopEarly with
      | none => .exhausted p
      | some (solution, behind) =>
        runAll s stopEarly deadline passes (p.advanceAll s solution behind)

/-! ### Shadows -/

/-- Solutions that differ in the names of variables only. -/
def Twins (a b : Solution) : Prop :=
  ∃ m : Correspondence, m.literals = Eq ∧ m.OfSolution a b

/-- A list of solutions without pruning against one with pruning: each is a twin of one there, or looks
like one that was there before. The first list holds what was there before. -/
inductive Shadows : List Solution → List Solution → List Solution → Prop
  | nil {earlier : List Solution} : Shadows earlier [] []
  | twin {earlier as bs : List Solution} {a b : Solution} (twins : Twins a b)
      (rest : Shadows (b :: earlier) as bs) : Shadows earlier (a :: as) (b :: bs)
  | shadow {earlier as bs : List Solution} {a b : Solution} (mem : b ∈ earlier)
      (like : looksLike a b = true) (rest : Shadows earlier as bs) : Shadows earlier (a :: as) bs

theorem Twins.refl (a : Solution) : Twins a a :=
  ⟨.identity, rfl, .identity a⟩

theorem Twins.looksLike {a b : Solution} (h : Twins a b) : looksLike a b = true := by
  obtain ⟨m, -, h⟩ := h
  exact h.looksLike

theorem Twins.tuple?_eq {a b : Solution} (h : Twins a b) :
    Progress.tuple? a = Progress.tuple? b := by
  obtain ⟨m, hm, h⟩ := h
  have htuple := h.tuple?
  rw [hm, List.forall₂_eq_eq_eq] at htuple
  generalize Progress.tuple? a = found at htuple
  generalize Progress.tuple? b = found' at htuple
  cases htuple with
  | none => rfl
  | some h => exact congrArg some h

theorem hasPending_eq_of_looksLike {a b : Solution} (h : looksLike a b = true) :
    hasPending a = hasPending b := by
  obtain ⟨m, h, -⟩ := Correspondence.exists_of_looksLike h
  exact h.hasPending

/-- Solutions that look alike have equal tuples. -/
theorem exists_tuple?_beq {a b : Solution} {values : List Literal} (h : looksLike a b = true)
    (tuple : Progress.tuple? a = some values) :
    ∃ others, Progress.tuple? b = some others ∧ (values == others) = true := by
  obtain ⟨m, h, -⟩ := Correspondence.exists_of_looksLike h
  have htuple := h.tuple?
  rw [tuple] at htuple
  generalize Progress.tuple? b = found at htuple
  cases htuple with
  | some hrel => exact ⟨_, rfl, Correspondence.beq_of_forall₂ hrel⟩

namespace Shadows

variable {earlier as bs : List Solution} {a b : Solution}

/-- A twin of what is put behind the pruned list is put behind the other. -/
theorem append_twin (h : Shadows earlier as bs) (twins : Twins a b) :
    Shadows earlier (as ++ [a]) (bs ++ [b]) := by
  induction h with
  | nil => exact .twin twins .nil
  | twin twins' _ ih => exact .twin twins' ih
  | shadow mem like _ ih => exact .shadow mem like ih

/-- What looks like something before is put behind the list without pruning. -/
theorem append_shadow (h : Shadows earlier as bs) (mem : b ∈ earlier ∨ b ∈ bs)
    (like : looksLike a b = true) : Shadows earlier (as ++ [a]) bs := by
  induction h with
  | nil => exact .shadow (by simpa using mem) like .nil
  | @twin earlier _ bs _ b' twins' _ ih =>
    refine .twin twins' (ih ?_)
    rw [List.mem_cons] at mem ⊢
    tauto
  | shadow mem' like' _ ih => exact .shadow mem' like' (ih mem)

/-- Shadows add nothing to the tuples, of which each is listed once. -/
theorem loop_eq (h : Shadows earlier as bs) {met : List (List Literal)}
    (known : ∀ c ∈ earlier, ∀ values, Progress.tuple? c = some values →
      met.any (values == ·) = true) :
    List.eraseDupsBy.loop (· == ·) (as.filterMap Progress.tuple?) met =
      List.eraseDupsBy.loop (· == ·) (bs.filterMap Progress.tuple?) met := by
  induction h generalizing met with
  | nil => rfl
  | @twin earlier as bs a b twins _ ih =>
    rw [List.filterMap_cons, List.filterMap_cons, twins.tuple?_eq]
    cases htuple : Progress.tuple? b with
    | none =>
      refine ih ?_
      rw [List.forall_mem_cons]
      exact ⟨by simp [htuple], known⟩
    | some values =>
      simp only
      rw [List.eraseDupsBy.loop, List.eraseDupsBy.loop]
      cases hmet : met.any (values == ·) with
      | true =>
        refine ih ?_
        rw [List.forall_mem_cons]
        exact ⟨by simpa [htuple] using hmet, known⟩
      | false =>
        refine ih ?_
        rw [List.forall_mem_cons]
        refine ⟨by simp [htuple], fun c hc others hothers => ?_⟩
        rw [List.any_cons, known c hc others hothers, Bool.or_true]
  | @shadow earlier as bs a b mem like _ ih =>
    rw [List.filterMap_cons]
    cases htuple : Progress.tuple? a with
    | none => exact ih known
    | some values =>
      obtain ⟨others, hothers, heq⟩ := exists_tuple?_beq like htuple
      have hmet : met.any (values == ·) = true := by
        obtain ⟨other, hother, heq'⟩ := List.any_eq_true.1 (known b mem others hothers)
        exact List.any_eq_true.2 ⟨other, hother, BEq.trans heq heq'⟩
      simp only
      rw [List.eraseDupsBy.loop, hmet]
      exact ih known

end Shadows

/-! ### Expanding alike -/

/-- A built-in, given by its name and the number of its inputs, comes to one value whenever it is
called, and for literals of some kind to literals of that kind, equal ones for equal inputs. -/
structure IsSteady (r : Registry) (L : Literal → Prop) (functor : String) (inputs : Nat) : Prop where
  deterministic : ∀ us ambient ambient', us.length = inputs →
    (r.evaluate functor us ambient).1 = (r.evaluate functor us ambient').1
  closed : ∀ us ambient value, us.length = inputs → (∀ u ∈ us, L u) →
    (r.evaluate functor us ambient).1 = some value → L value
  congruent : ∀ us vs ambient, us.length = inputs → (∀ u ∈ us, L u) → (∀ v ∈ vs, L v) →
    (us == vs) = true →
      ((r.evaluate functor us ambient).1 == (r.evaluate functor vs ambient).1) = true

/-- A solution whose variables are older than a number, whose literals are of some kind, and whose
built-ins are steady. -/
structure Steady (s : Setting) (L : Literal → Prop) (bound : Nat) (solution : Solution) : Prop where
  below : ∀ g ∈ solution, ∀ name ∈ g.fact.varNames, name.Below bound
  literals : ∀ g ∈ solution, ∀ u, Atom.lit u ∈ g.fact.args → L u
  builtins : ∀ g ∈ solution, s.isBuiltin g.fact = true →
    IsSteady s.registry L g.fact.functor (g.fact.arity - 1)

/-- The literals of a program are of some kind, and the built-ins that it calls are steady. -/
structure CallsSteady (s : Setting) (L : Literal → Prop) : Prop where
  literals : ∀ key, ∀ c ∈ s.program.candidates key, ∀ f ∈ c.facts, ∀ u, Atom.lit u ∈ f.args → L u
  builtins : ∀ key, ∀ c ∈ s.program.candidates key, ∀ f ∈ c.body, s.isBuiltin f = true →
    IsSteady s.registry L f.functor (f.arity - 1)

variable {s : Setting} {L : Literal → Prop} {l l' : Ledger} {a b : Solution}

private theorem forall_inputsOf {f : Fact} (h : ∀ u, Atom.lit u ∈ f.args → L u) :
    ∀ u ∈ inputsOf f, L u := by
  intro u hu
  obtain ⟨arg, harg, hlit⟩ := List.mem_filterMap.1 hu
  cases arg with
  | var _ => simp [Atom.literal?] at hlit
  | lit v =>
    obtain rfl : v = u := by simpa [Atom.literal?] using hlit
    exact h v (List.dropLast_subset _ harg)

/-- A steady built-in comes to the same value for a goal and its twin. -/
private theorem IsSteady.rel_eq {f g : Fact} (h : IsSteady s.registry L f.functor (f.arity - 1))
    (ready : isEvaluable f = true) (inputs : List.Forall₂ Eq (inputsOf f) (inputsOf g))
    (ambient ambient' : Ambient) :
    Option.Rel Eq (s.registry.evaluate f.functor (inputsOf f) ambient).1
      (s.registry.evaluate f.functor (inputsOf g) ambient').1 := by
  rw [List.forall₂_eq_eq_eq] at inputs
  rw [← inputs, h.deterministic _ ambient ambient' (length_inputsOf ready)]
  cases (s.registry.evaluate f.functor (inputsOf f) ambient').1 with
  | none => exact .none
  | some value => exact .some rfl

/-- A steady built-in comes to equal values for goals with equal literals. -/
theorem IsSteady.rel {f g : Fact} (h : IsSteady s.registry L f.functor (f.arity - 1))
    (m : Correspondence) (all : ∀ u v, (u == v) = true → m.literals u v)
    (ready : isEvaluable f = true) (inputs : List.Forall₂ m.literals (inputsOf f) (inputsOf g))
    (hf : ∀ u, Atom.lit u ∈ f.args → L u) (hg : ∀ u, Atom.lit u ∈ g.args → L u)
    (ambient ambient' : Ambient) :
    Option.Rel m.literals (s.registry.evaluate f.functor (inputsOf f) ambient).1
      (s.registry.evaluate f.functor (inputsOf g) ambient').1 := by
  have hlength := length_inputsOf ready
  have hequal := h.congruent _ _ ambient hlength (forall_inputsOf hf) (forall_inputsOf hg)
    (Correspondence.beq_of_forall₂ inputs)
  rw [h.deterministic (inputsOf g) ambient ambient' (inputs.length_eq ▸ hlength)] at hequal
  generalize (s.registry.evaluate f.functor (inputsOf f) ambient).1 = value at hequal
  generalize (s.registry.evaluate f.functor (inputsOf g) ambient').1 = value' at hequal
  cases value with
  | none =>
    cases value' with
    | none => exact .none
    | some _ => exact absurd hequal (by simp)
  | some _ =>
    cases value' with
    | none => exact absurd hequal (by simp)
    | some _ => exact .some (all _ _ (by simpa using hequal))

theorem Steady.mono {bound other : Nat} (h : Steady s L bound a) (le : bound ≤ other) :
    Steady s L other a :=
  { h with below := fun g hg name hname => (h.below g hg name hname).mono le }

/-- The literals of the facts with which a steady goal is discharged. -/
private theorem Resolvent.literals (calls : CallsSteady s L) {next : Nat} {goal head : Fact}
    {body : List Fact} (h : Resolvent s l next goal head body)
    (unmemoized : l.memo.enabled = []) (literals : ∀ u, Atom.lit u ∈ goal.args → L u)
    (builtin : s.isBuiltin goal = true → IsSteady s.registry L goal.functor (goal.arity - 1)) :
    ∀ f ∈ head :: body, ∀ u, Atom.lit u ∈ f.args → L u := by
  cases h with
  | @value output ambient hbuiltin ready evaluated =>
    intro f hf u hu
    obtain rfl := List.mem_singleton.1 hf
    have hinputs := forall_inputsOf literals
    have houtput := (builtin hbuiltin).closed _ ambient output (length_inputsOf ready) hinputs evaluated
    have hmem : u ∈ inputsOf goal ++ [output] := by simpa [Fact.ofLiterals] using hu
    rcases List.mem_append.1 hmem with hu | hu
    · exact hinputs u hu
    · exact List.mem_singleton.1 hu ▸ houtput
  | recorded user found => simp [cachedTuple?_of_unmemoized unmemoized] at found
  | @renamed c start user candidate fresh free =>
    intro f hf u hu
    change f ∈ (c.renameApart start).1.facts at hf
    rw [Clause.facts_renameApart, List.mem_map] at hf
    obtain ⟨f', hf', rfl⟩ := hf
    obtain ⟨arg, harg, hrename⟩ := List.mem_map.1 hu
    cases arg with
    | var _ => simp [Atom.rename] at hrename
    | lit v =>
      obtain rfl : v = u := by simpa [Atom.rename] using hrename
      exact calls.literals _ c candidate f' hf' v harg

/-- What a steady solution is expanded into is steady. -/
theorem Steady.expand (calls : CallsSteady s L) (unmemoized : l.memo.enabled = [])
    (h : Steady s L l.nextVar a) {child : Solution} (mem : child ∈ (Search.expand s l a).1) :
    Steady s L (Search.expand s l a).2.nextVar child := by
  constructor
  · exact below_of_mem_expand h.below mem
  · obtain ⟨before, g, behind, head, body, b, rfl, -, hresolvent, hb, rfl⟩ := exists_of_mem_expand mem
    have hliterals := hresolvent.literals calls unmemoized (h.literals g (by simp))
      (h.builtins g (by simp))
    rw [List.forall_mem_cons] at hliterals
    have hyielding : b.Yielding L :=
      Bindings.yielding_of_unify hliterals.1 (h.literals g (by simp)) hb
    -- Every goal of the child is one from before or from the body, substituted.
    intro d hd
    rcases mem_discharge ((compact_fst _ _).2.1.subset hd) with ⟨old, hold, heq⟩ | hnew
    · rw [heq]
      exact hyielding.substitute (h.literals old hold)
    · obtain ⟨f, hf, heq⟩ := List.mem_map.1 hnew
      rw [← heq]
      exact hyielding.substitute (hliterals.2 f hf)
  · exact predicates_of_mem_expand
      (P := fun functor arity => s.registry.contains functor arity = true →
        IsSteady s.registry L functor (arity - 1)) h.builtins calls.builtins mem

theorem exists_right_of_forall₂ {α β : Type} {R : α → β → Prop} {as : List α} {bs : List β}
    (h : List.Forall₂ R as bs) {a : α} (ha : a ∈ as) : ∃ b ∈ bs, R a b := by
  induction h with
  | nil => exact absurd ha List.not_mem_nil
  | cons first _ ih =>
    rcases List.mem_cons.1 ha with rfl | ha
    · exact ⟨_, List.mem_cons_self, first⟩
    · obtain ⟨b, hb, hrel⟩ := ih ha
      exact ⟨b, List.mem_cons_of_mem _ hb, hrel⟩

/-- Solutions that look alike are expanded into solutions that look alike, one by one. -/
theorem expand_like (unmemoized : l.memo.enabled = []) (unmemoized' : l'.memo.enabled = [])
    (ha : Steady s L l.nextVar a) (hb : Steady s L l'.nextVar b) (like : looksLike a b = true) :
    List.Forall₂ (fun c d => looksLike c d = true) (expand s l a).1 (expand s l' b).1 := by
  obtain ⟨m, h, all, -⟩ := Correspondence.exists_of_looksLike like
  refine (h.expand unmemoized unmemoized' ha.below hb.below
    fun g hg g' hg' hgoal hbuiltin hready => ?_).imp ?_
  · exact (ha.builtins g hg hbuiltin).rel m all hready hgoal.fact.inputsOf (ha.literals g hg)
      (hb.literals g' hg')
  · rintro c d ⟨m', -, h'⟩
    exact h'.looksLike

/-- Twins are expanded into twins, one by one. -/
theorem Twins.expand (unmemoized : l.memo.enabled = []) (unmemoized' : l'.memo.enabled = [])
    (ha : Steady s L l.nextVar a) (hb : Steady s L l'.nextVar b) (twins : Twins a b) :
    List.Forall₂ Twins (Search.expand s l a).1 (Search.expand s l' b).1 := by
  obtain ⟨m, hm, h⟩ := twins
  refine (h.expand unmemoized unmemoized' ha.below hb.below
    fun g hg g' _ hgoal hbuiltin hready => ?_).imp ?_
  · rw [hm]
    exact (ha.builtins g hg hbuiltin).rel_eq hready (hm ▸ hgoal.fact.inputsOf)
  · rintro c d ⟨m', hm', h'⟩
    exact ⟨m', hm'.trans hm, h'⟩

/-! ### Taking in children -/

namespace Progress

theorem file_cases (p : Progress) (child : Solution) :
    (hasPending child = true ∧ (p.file child).waiting = p.waiting ++ [child] ∧
        (p.file child).finished = p.finished) ∨
      (hasPending child = false ∧ (p.file child).waiting = p.waiting ∧
        (p.file child).finished = child :: p.finished) := by
  rw [file]
  cases hasPending child with
  | true => exact .inl ⟨rfl, by simp [waiting], rfl⟩
  | false => exact .inr ⟨rfl, rfl, rfl⟩

theorem ledger_foldl_file (children : List Solution) (p : Progress) :
    (children.foldl file p).ledger = p.ledger := by
  induction children generalizing p with
  | nil => rfl
  | cons child rest ih =>
    rw [List.foldl_cons, ih, file]
    split <;> rfl

theorem mem_waiting_foldl_file {children : List Solution} {p : Progress} {solution : Solution}
    (h : solution ∈ (children.foldl file p).waiting) :
    solution ∈ children ∨ solution ∈ p.waiting := by
  induction children generalizing p with
  | nil => exact .inr h
  | cons child rest ih =>
    rcases ih h with hrest | hwaiting
    · exact .inl (List.mem_cons_of_mem child hrest)
    · rcases p.file_cases child with ⟨-, heq, -⟩ | ⟨-, heq, -⟩
      · rw [heq, List.mem_append, List.mem_singleton] at hwaiting
        rw [List.mem_cons]
        tauto
      · exact .inr (heq ▸ hwaiting)

end Progress

/-- The state of the loop without pruning against that of the search loop; `earlier` lists what the
search loop has expanded. Whatever it made looks like something that it expanded or that still
stands. -/
structure Paired (earlier : List Solution) (u : Progress) (p : Listing) : Prop where
  waiting : Shadows earlier u.waiting p.waiting
  finished : Shadows [] u.finished.reverse p.base.finished.reverse
  known : ∀ a ∈ p.made, ∃ b ∈ earlier ++ p.standing, looksLike a b = true
  unfinished : ∀ b ∈ earlier ++ p.waiting, hasPending b = true
  closed : ∀ b ∈ p.base.finished, hasPending b = false

namespace Paired

variable {earlier : List Solution} {u : Progress} {p : Listing}

/-- Both loops list the same answers, in the same order. -/
theorem answers_eq (h : Paired earlier u p) : p.answers false = u.answers false := by
  rw [Listing.answers, Progress.answers, distinct_eq_eraseDups]
  exact (h.finished.loop_eq (by simp)).symm

/-- The loop without pruning makes a solution that looks like one from before. -/
theorem file (h : Paired earlier u p) {c z : Solution} (mem : z ∈ earlier ++ p.standing)
    (like : looksLike c z = true) : Paired earlier (u.file c) p := by
  have hpending := hasPending_eq_of_looksLike like
  rw [Listing.standing, ← List.append_assoc, List.mem_append] at mem
  rcases u.file_cases c with ⟨hopen, hwaiting, hfinished⟩ | ⟨hclosed, hwaiting, hfinished⟩
  · have hmem : z ∈ earlier ++ p.waiting := by
      refine mem.resolve_right fun hz => ?_
      rw [hopen, h.closed z hz] at hpending
      simp at hpending
    exact { h with
      waiting := hwaiting ▸ h.waiting.append_shadow (List.mem_append.1 hmem) like
      finished := hfinished ▸ h.finished }
  · have hmem : z ∈ p.base.finished := by
      refine mem.resolve_left fun hz => ?_
      rw [hclosed, h.unfinished z hz] at hpending
      simp at hpending
    refine { h with waiting := hwaiting ▸ h.waiting, finished := ?_ }
    rw [hfinished, List.reverse_cons]
    exact h.finished.append_shadow (.inr (List.mem_reverse.2 hmem)) like

/-- What the search loop makes looks like something that stands afterwards. -/
private theorem known_takeIn (h : Paired earlier u p) (d : Solution) :
    ∀ a ∈ (p.takeIn d).made, ∃ b ∈ earlier ++ (p.takeIn d).standing, looksLike a b = true := by
  have hold (b : Solution) (hb : b ∈ earlier ++ p.standing) :
      b ∈ earlier ++ (p.takeIn d).standing :=
    List.mem_append.2 ((List.mem_append.1 hb).imp_right
      fun hb => Listing.mem_standing_takeIn_of_mem hb d)
  rw [Listing.made_takeIn, List.forall_mem_cons]
  constructor
  · rcases p.mem_standing_takeIn d with ⟨hknown, -⟩ | hmem
    · obtain ⟨a, ha, hlike⟩ := List.any_eq_true.1 hknown
      obtain ⟨b, hb, hlike'⟩ := h.known a ha
      exact ⟨b, hold b hb, looksLike_trans (looksLike_symm hlike) hlike'⟩
    · exact ⟨d, List.mem_append_right _ ((hmem d).2 (.inl rfl)), looksLike_self d⟩
  · intro a ha
    obtain ⟨b, hb, hlike⟩ := h.known a ha
    exact ⟨b, hold b hb, hlike⟩

/-- Both loops make twins. -/
theorem takeIn (h : Paired earlier u p) {c d : Solution} (twins : Twins c d) :
    Paired earlier (u.file c) (p.takeIn d) := by
  have hpending := hasPending_eq_of_looksLike twins.looksLike
  rcases p.takeIn_cases d with
    ⟨hknown, hwaiting', hfinished'⟩ | ⟨hopen, hwaiting', hfinished'⟩ | ⟨hclosed, hwaiting', hfinished'⟩
  · obtain ⟨a, ha, hlike⟩ := List.any_eq_true.1 hknown
    obtain ⟨z, hz, hlike'⟩ := h.known a ha
    have hfile := h.file hz
      (looksLike_trans twins.looksLike (looksLike_trans (looksLike_symm hlike) hlike'))
    exact ⟨hwaiting' ▸ hfile.waiting, hfinished' ▸ hfile.finished, h.known_takeIn d,
      hwaiting' ▸ h.unfinished, hfinished' ▸ h.closed⟩
  · rcases u.file_cases c with ⟨-, hwaiting, hfinished⟩ | ⟨hclosed, -, -⟩
    · refine ⟨?_, ?_, h.known_takeIn d, ?_, hfinished' ▸ h.closed⟩
      · rw [hwaiting, hwaiting']
        exact h.waiting.append_twin twins
      · rw [hfinished, hfinished']
        exact h.finished
      · rw [hwaiting', ← List.append_assoc]
        exact List.forall_mem_append.2 ⟨h.unfinished, by simpa using hopen⟩
    · rw [hclosed, hopen] at hpending
      simp at hpending
  · rcases u.file_cases c with ⟨hopen, -, -⟩ | ⟨-, hwaiting, hfinished⟩
    · rw [hclosed, hopen] at hpending
      simp at hpending
    · refine ⟨?_, ?_, h.known_takeIn d, hwaiting' ▸ h.unfinished, ?_⟩
      · rw [hwaiting, hwaiting']
        exact h.waiting
      · rw [hfinished, hfinished', List.reverse_cons, List.reverse_cons]
        exact h.finished.append_twin twins
      · rw [hfinished']
        exact List.forall_mem_cons.2 ⟨hclosed, h.closed⟩

/-- What is known stays known when the search loop takes the first solution off its queue. -/
theorem mem_pop {p' : Listing} {b : Solution} (waiting : p.waiting = b :: p'.waiting)
    (finished : p'.base.finished = p.base.finished) {c : Solution}
    (h : c ∈ earlier ++ p.standing) : c ∈ b :: earlier ++ p'.standing := by
  rw [Listing.standing, waiting, ← finished] at h
  rw [Listing.standing]
  simp only [List.mem_append, List.mem_cons] at h ⊢
  tauto

/-- Both loops take twins off their queues. -/
theorem pop (h : Paired earlier u p) {u' : Progress} {p' : Listing} {b : Solution}
    (waiting : p.waiting = b :: p'.waiting) (rest : Shadows (b :: earlier) u'.waiting p'.waiting)
    (finished : u'.finished = u.finished) (finished' : p'.base.finished = p.base.finished)
    (made : p'.made = p.made) : Paired (b :: earlier) u' p' where
  waiting := rest
  finished := by
    rw [finished, finished']
    exact h.finished
  known a ha := by
    obtain ⟨z, hz, hlike⟩ := h.known a (made ▸ ha)
    exact ⟨z, mem_pop waiting finished' hz, hlike⟩
  unfinished c hc := by
    refine h.unfinished c ?_
    rw [waiting]
    simp only [List.mem_append, List.mem_cons] at hc ⊢
    tauto
  closed := finished' ▸ h.closed

/-- The loop without pruning makes solutions that look like ones from before. -/
theorem foldl_file (h : Paired earlier u p) {cs : List Solution}
    (shadows : ∀ c ∈ cs, ∃ z ∈ earlier ++ p.standing, looksLike c z = true) :
    Paired earlier (cs.foldl Progress.file u) p := by
  induction cs generalizing u with
  | nil => exact h
  | cons c cs ih =>
    rw [List.forall_mem_cons] at shadows
    obtain ⟨⟨z, hz, hlike⟩, hrest⟩ := shadows
    exact ih (h.file hz hlike) hrest

theorem foldl_takeIn (h : Paired earlier u p) {cs ds : List Solution}
    (twins : List.Forall₂ Twins cs ds) :
    Paired earlier (cs.foldl Progress.file u) (ds.foldl Listing.takeIn p) := by
  induction twins generalizing u p with
  | nil => exact h
  | cons first _ ih => exact ih (h.takeIn first)

end Paired

/-! ### Passes -/

/-- Two states of the loops, without memo. What looks like a solution that the search loop has expanded
is expanded into solutions that look like ones it knows. -/
structure Lockstep (s : Setting) (L : Literal → Prop) (earlier : List Solution) (u : Progress) (p : Listing) : Prop where
  paired : Paired earlier u p
  settled : ∀ z ∈ earlier, ∀ (l : Ledger) (a : Solution), l.memo.enabled = [] →
    Steady s L l.nextVar a → looksLike a z = true → ∀ c ∈ (expand s l a).1,
      ∃ b ∈ earlier ++ p.standing, looksLike c b = true
  unmemoized : u.ledger.memo.enabled = []
  unmemoized' : p.base.ledger.memo.enabled = []
  steady : ∀ a ∈ u.waiting, Steady s L u.ledger.nextVar a
  steady' : ∀ b ∈ p.waiting, Steady s L p.base.ledger.nextVar b
  sooner : p.base.ledger.stats.iterations ≤ u.ledger.stats.iterations

namespace Lockstep

variable {earlier : List Solution} {u : Progress} {p : Listing} {a b : Solution}
  {behind behind' : Queue (Nat × Solution)}

/-- The start of a search in both loops. -/
theorem start {l l' : Ledger} {query : Fact} (unmemoized : l.memo.enabled = [])
    (unmemoized' : l'.memo.enabled = []) (steady : Steady s L 0 [Goal.pending 0 query])
    (sooner : l'.stats.iterations ≤ l.stats.iterations) :
    Lockstep s L [] (.start l query) (.start l' query) := by
  have hopen : Search.hasPending [Goal.pending 0 query] = true := rfl
  have htwins : Twins [Goal.pending 0 query] [Goal.pending 0 query] := .refl _
  refine ⟨⟨.twin htwins .nil, .nil, ?_, ?_, by simp [Listing.start, Progress.start]⟩, by simp,
    unmemoized, unmemoized', ?_, ?_, sooner⟩
  · intro a ha
    obtain rfl := List.mem_singleton.1 ha
    exact ⟨_, List.mem_singleton_self _, looksLike_self _⟩
  · intro b hb
    obtain rfl := List.mem_singleton.1 hb
    exact hopen
  · intro a ha
    obtain rfl := List.mem_singleton.1 ha
    exact steady.mono (Nat.zero_le _)
  · intro b hb
    obtain rfl := List.mem_singleton.1 hb
    exact steady.mono (Nat.zero_le _)

/-- The ledger of a state once a solution is expanded. -/
private theorem ledger_advanceAll (s : Setting) (u : Progress) (a : Solution)
    (behind : Queue (Nat × Solution)) :
    let counted := u.ledger.count fun c => { c with iterations := c.iterations + 1 }
    (u.advanceAll s a behind).ledger.memo.enabled = u.ledger.memo.enabled ∧
      (u.advanceAll s a behind).ledger.nextVar = (expand s counted a).2.nextVar ∧
      (u.advanceAll s a behind).ledger.stats.iterations = u.ledger.stats.iterations + 1 := by
  intro counted
  rw [Progress.advanceAll]
  simp only
  rw [Progress.ledger_foldl_file]
  exact ⟨enabled_expand s counted a, rfl, iterations_expand s counted a⟩

/-- Once the loop without pruning has expanded a solution, what waits there is steady. -/
private theorem steady_advanceAll (calls : CallsSteady s L) (h : Lockstep s L earlier u p)
    (waiting : u.waiting = a :: behind.toList.map Prod.snd) :
    ∀ c ∈ (u.advanceAll s a behind).waiting,
      Steady s L (u.advanceAll s a behind).ledger.nextVar c := by
  have hsteady := h.steady
  rw [waiting, List.forall_mem_cons] at hsteady
  intro c hc
  rw [(ledger_advanceAll s u a behind).2.1]
  let counted := u.ledger.count fun c => { c with iterations := c.iterations + 1 }
  rcases Progress.mem_waiting_foldl_file hc with hchild | hwaiting
  · exact hsteady.1.expand (l := counted) calls h.unmemoized hchild
  · exact (hsteady.2 c hwaiting).mono (nextVar_le_expand s counted a)

/-- The loop without pruning expands a shadow. -/
private theorem advanceAll (calls : CallsSteady s L) (h : Lockstep s L earlier u p)
    (waiting : u.waiting = a :: behind.toList.map Prod.snd) (mem : b ∈ earlier)
    (like : looksLike a b = true) (rest : Shadows earlier (behind.toList.map Prod.snd) p.waiting) :
    Lockstep s L earlier (u.advanceAll s a behind) p := by
  obtain ⟨hmemo, -, hiterations⟩ := ledger_advanceAll s u a behind
  let counted := u.ledger.count fun c => { c with iterations := c.iterations + 1 }
  have hsteady : Steady s L counted.nextVar a := h.steady a (by simp [waiting])
  refine { h with
    paired := ?_
    unmemoized := hmemo.trans h.unmemoized
    steady := h.steady_advanceAll calls waiting
    sooner := hiterations ▸ Nat.le_succ_of_le h.sooner }
  refine Paired.foldl_file ?_ (h.settled b mem counted a h.unmemoized hsteady like)
  exact { h.paired with waiting := rest, finished := h.paired.finished }

/-- Both loops expand twins. -/
private theorem advance (calls : CallsSteady s L) (h : Lockstep s L earlier u p)
    (waiting : u.waiting = a :: behind.toList.map Prod.snd)
    (waiting' : p.waiting = b :: behind'.toList.map Prod.snd) (twins : Twins a b)
    (rest : Shadows (b :: earlier) (behind.toList.map Prod.snd) (behind'.toList.map Prod.snd)) :
    Lockstep s L (b :: earlier) (u.advanceAll s a behind) (p.advance s b behind') := by
  obtain ⟨hmemo, -, hiterations⟩ := ledger_advanceAll s u a behind
  let counted := u.ledger.count fun c => { c with iterations := c.iterations + 1 }
  let counted' := p.base.ledger.count fun c => { c with iterations := c.iterations + 1 }
  have hsteady : Steady s L counted.nextVar a := h.steady a (by simp [waiting])
  have hsteady' : Steady s L counted'.nextVar b := h.steady' b (by simp [waiting'])
  have hchildren : List.Forall₂ Twins (expand s counted a).1 (expand s counted' b).1 :=
    twins.expand h.unmemoized h.unmemoized' hsteady hsteady'
  let popped : Progress := { u with
    ledger := (expand s counted a).2.spend (passEffort + childrenEffort (expand s counted a).1)
    opened := behind }
  let popped' : Listing := ⟨{ p.base with
    ledger := (expand s counted' b).2.spend (passEffort + childrenEffort (expand s counted' b).1)
    opened := behind' }, p.made⟩
  have hadvance' : p.advance s b behind' = (expand s counted' b).1.foldl Listing.takeIn popped' := rfl
  have hpopped : p.waiting = b :: popped'.waiting := waiting'
  have hpop : Paired (b :: earlier) popped popped' := h.paired.pop hpopped rest rfl rfl rfl
  have hpaired : Paired (b :: earlier) (u.advanceAll s a behind) (p.advance s b behind') :=
    hpop.foldl_takeIn hchildren
  have hpool : ∀ c ∈ earlier ++ p.standing, c ∈ b :: earlier ++ (p.advance s b behind').standing :=
    fun c hc => List.mem_append.2 ((List.mem_append.1 (Paired.mem_pop hpopped rfl hc)).imp_right
      Listing.mem_standing_foldl_of_mem)
  refine ⟨hpaired, List.forall_mem_cons.2 ⟨fun l c hl hc hlike d hd => ?_,
    fun z hz l c hl hc hlike d hd => ?_⟩, hmemo.trans h.unmemoized,
    (Listing.enabled_advance s p b behind').trans h.unmemoized',
    h.steady_advanceAll calls waiting, ?_, ?_⟩
  · -- What `b` is expanded into is known from now on.
    have halike : List.Forall₂ (fun d d' => looksLike d d' = true) (expand s l c).1
        (expand s counted' b).1 := expand_like hl h.unmemoized' hc hsteady' hlike
    obtain ⟨d', hd', hlike'⟩ := exists_right_of_forall₂ halike hd
    obtain ⟨z, hz, hlike''⟩ := hpaired.known d'
      (hadvance' ▸ Listing.mem_made_foldl.2 (.inl hd'))
    exact ⟨z, hz, looksLike_trans hlike' hlike''⟩
  · obtain ⟨d', hd', hlike'⟩ := h.settled z hz l c hl hc hlike d hd
    exact ⟨d', hpool d' hd', hlike'⟩
  · rw [Listing.nextVar_advance]
    refine Listing.forall_waiting_advance waiting' (fun c hc => ?_) fun c hc => ?_
    · exact (h.steady' c hc).mono (nextVar_le_expand s counted' b)
    · exact hsteady'.expand (l := counted') calls h.unmemoized' hc
  · rw [hiterations, Listing.iterations_advance]
    exact Nat.succ_le_succ h.sooner

/-- If the loop without pruning comes to its end, the search loop does so with no more passes, and both
list the same answers. -/
theorem run (calls : CallsSteady s L) (h : Lockstep s L earlier u p) {passes : Nat} {u' : Progress}
    (ended : runAll s false none passes u = .exhausted u') :
    ∃ p', Listing.run s false none passes p = (true, p') ∧
      p'.base.ledger.stats.iterations ≤ u'.ledger.stats.iterations ∧
      p'.answers false = u'.answers false := by
  induction passes generalizing earlier u p with
  | zero => simp [runAll] at ended
  | succ passes ih =>
    rw [runAll, if_neg (by simp [Progress.isLate])] at ended
    have hwaiting := h.paired.waiting
    cases hnext : u.next? false with
    | none =>
      rw [hnext] at ended
      obtain rfl : u = u' := by simpa using ended
      have hnil : u.waiting = [] := Listing.waiting_eq_nil (p := ⟨u, []⟩) hnext
      rw [hnil] at hwaiting
      generalize hbs : p.waiting = bs at hwaiting
      cases hwaiting
      refine ⟨p, ?_, h.sooner, h.paired.answers_eq⟩
      cases hnext' : p.base.next? false with
      | none =>
        rw [Listing.run, if_neg (by simp [Progress.isLate]), hnext']
      | some entry => simp [Listing.waiting_of_next? hnext'] at hbs
    | some entry =>
      obtain ⟨a, behind⟩ := entry
      rw [hnext] at ended
      obtain ⟨number, hopened⟩ := Progress.toList_of_next? hnext
      have hcons : u.waiting = a :: behind.toList.map Prod.snd := by
        rw [Progress.waiting, hopened, List.map_cons]
      rw [hcons] at hwaiting
      generalize hbs : p.waiting = bs at hwaiting
      cases hwaiting with
      | twin twins rest =>
        cases hnext' : p.base.next? false with
        | none => simp [Listing.waiting_eq_nil hnext'] at hbs
        | some entry =>
          obtain ⟨b', behind'⟩ := entry
          have hcons' := Listing.waiting_of_next? hnext'
          rw [hbs, List.cons.injEq] at hcons'
          obtain ⟨rfl, rfl⟩ := hcons'
          rw [Listing.run_succ_of_next rfl hnext']
          exact ih (h.advance calls hcons (Listing.waiting_of_next? hnext') twins rest) ended
      | shadow mem like rest =>
        obtain ⟨p', hrun, hp'⟩ := ih (h.advanceAll calls hcons mem like (hbs ▸ rest)) ended
        exact ⟨p', Listing.run_of_le hrun (Nat.le_succ _), hp'⟩

end Lockstep

end Horn.Search
