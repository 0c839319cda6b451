import Mathlib.Data.Set.Finite.List
import Horn.Proofs.Search.Passes
import Horn.Proofs.Search.Pending
import Horn.Proofs.Unification.Names

/-!
Runs whose open solutions stay short come to an end.

The goals of every solution are made of the arguments that stand in the query and in the clauses, up
to the names of variables: `Grown.expand`. Of such solutions with no more than so many goals there are
only finitely many that do not look alike: `exists_bound`. The loop never expands two solutions that
look alike, so it cannot go on for ever: `Listing.exists_ended_of_short`.
-/

set_option autoImplicit false
set_option relaxedAutoImplicit false

namespace Horn

/-! ### What facts are made of -/

/-- An argument without the name of its variable. -/
def Atom.blank : Atom → Atom :=
  Atom.rename fun _ => default

/-- A fact without the names of its variables. -/
def Fact.blank : Fact → Fact :=
  Fact.rename fun _ => default

/-- A fact has the predicate of one of some facts, and arguments that stand in them, up to the names
of variables. -/
structure Fact.MadeOf (fs : List Fact) (f : Fact) : Prop where
  predicate : ∃ g ∈ fs, f.functor = g.functor ∧ f.arity = g.arity
  args : ∀ a ∈ f.args, ∃ g ∈ fs, ∃ b ∈ g.args, a.blank = b.blank

namespace Fact.MadeOf

variable {fs : List Fact} {f : Fact}

theorem of_mem (h : f ∈ fs) : f.MadeOf fs :=
  ⟨⟨f, h, rfl, rfl⟩, fun a ha => ⟨f, h, a, ha, rfl⟩⟩

theorem rename (h : f.MadeOf fs) (change : VarName → VarName) : (f.rename change).MadeOf fs := by
  refine ⟨by simpa using h.predicate, fun a ha => ?_⟩
  obtain ⟨b, hb, rfl⟩ := List.mem_map.1 ha
  have hblank : (b.rename change).blank = b.blank := by cases b <;> rfl
  rw [hblank]
  exact h.args b hb

theorem literal_mem (h : f.MadeOf fs) {u : Literal} (hu : Atom.lit u ∈ f.args) :
    ∃ g ∈ fs, Atom.lit u ∈ g.args := by
  obtain ⟨g, hg, b, hb, hblank⟩ := h.args _ hu
  cases b with
  | var _ => exact Atom.noConfusion hblank
  | lit v =>
    obtain rfl : u = v := Atom.lit.inj hblank
    exact ⟨g, hg, hb⟩

/-- A substitution of literals that stand in the facts makes nothing new. -/
theorem substitute (h : f.MadeOf fs) {b : Bindings}
    (yielding : b.Yielding fun u => ∃ g ∈ fs, Atom.lit u ∈ g.args) :
    (b.substitute f).MadeOf fs := by
  refine ⟨by simpa using h.predicate, fun a ha => ?_⟩
  cases a with
  | lit u =>
    obtain ⟨g, hg, hu⟩ := yielding.substitute (fun _ hu => h.literal_mem hu) u ha
    exact ⟨g, hg, _, hu, rfl⟩
  | var w =>
    obtain ⟨old, hold, hsub⟩ := List.mem_map.1 ha
    have hblank : (Atom.var w).blank = old.blank := by
      cases old with
      | lit _ => exact Atom.noConfusion hsub
      | var v =>
        rw [Bindings.substituteAtom] at hsub
        split at hsub
        · obtain rfl := Atom.var.inj hsub
          rfl
        · exact Atom.noConfusion hsub
    rw [hblank]
    exact h.args old hold

end Fact.MadeOf

namespace Search

/-! ### Patterns -/

/-- What a solution looks like: its goals without the names of variables, and the numbers of their
occurrences. -/
def pattern (solution : Solution) : List (Bool × Fact) × List Nat :=
  (solution.map fun g => (g.resolved, g.fact.blank), numbering solution)

private theorem isEqv_of_map_eq {α β : Type} {f : α → β} {related : α → α → Bool}
    (h : ∀ a b, f a = f b → related a b = true) {as bs : List α} (eq : as.map f = bs.map f) :
    as.isEqv bs related = true := by
  induction as generalizing bs with
  | nil =>
    obtain rfl : bs = [] := List.map_eq_nil_iff.1 eq.symm
    rfl
  | cons a as ih =>
    cases bs with
    | nil => simp at eq
    | cons b bs =>
      obtain ⟨hfirst, hrest⟩ := List.cons.inj eq
      simp [List.isEqv, h a b hfirst, ih hrest]

private theorem sameShape_of_blank {a b : Atom} (eq : a.blank = b.blank) : a.sameShape b = true := by
  cases a with
  | lit u =>
    cases b with
    | var _ => exact Atom.noConfusion eq
    | lit v =>
      obtain rfl : u = v := Atom.lit.inj eq
      exact Atom.sameShape_self _
  | var v =>
    cases b with
    | lit _ => exact Atom.noConfusion eq
    | var w =>
      have hblank : Atom.var { v with name := default } = .var { w with name := default } := eq
      have hcondition : v.condition = w.condition := by simpa using hblank
      rw [Atom.sameShape, Variable.sameCondition, hcondition]
      cases w.condition with
      | none => rfl
      | some c => exact BEq.rfl

/-- Solutions with the same pattern look alike. -/
theorem looksLike_of_pattern {a b : Solution} (eq : pattern a = pattern b) :
    looksLike a b = true := by
  obtain ⟨hgoals, hnumbers⟩ := Prod.mk.inj eq
  rw [looksLike, Bool.and_eq_true, beq_iff_eq]
  refine ⟨isEqv_of_map_eq (fun g h hgh => ?_) hgoals, hnumbers⟩
  obtain ⟨hresolved, hfact⟩ := Prod.mk.inj hgh
  rw [Goal.sameShape, Bool.and_eq_true, beq_iff_eq, Fact.sameShape, Bool.and_eq_true, beq_iff_eq]
  have hfunctor : g.fact.blank.functor = h.fact.blank.functor := congrArg Fact.functor hfact
  have hargs : g.fact.blank.args = h.fact.blank.args := congrArg Fact.args hfact
  exact ⟨hresolved, hfunctor, isEqv_of_map_eq (fun _ _ => sameShape_of_blank) hargs⟩

/-! ### There are finitely many -/

private theorem finite_lists {α : Type} {S : Set α} (finite : S.Finite) (bound : Nat) :
    {items : List α | items.length ≤ bound ∧ ∀ a ∈ items, a ∈ S}.Finite := by
  have := finite.to_subtype
  refine ((List.finite_length_le S bound).image (List.map Subtype.val)).subset ?_
  rintro items ⟨hlength, hmem⟩
  exact ⟨items.pmap Subtype.mk hmem, by simpa using hlength, by simp [List.map_pmap]⟩

private theorem exists_arity (fs : List Fact) : ∃ bound, ∀ f ∈ fs, f.arity ≤ bound := by
  induction fs with
  | nil => exact ⟨0, by simp⟩
  | cons f fs ih =>
    obtain ⟨bound, hbound⟩ := ih
    refine ⟨max f.arity bound, List.forall_mem_cons.2 ⟨Nat.le_max_left _ _, fun g hg => ?_⟩⟩
    exact Nat.le_trans (hbound g hg) (Nat.le_max_right _ _)

private theorem finite_blanks (fs : List Fact) :
    {f : Fact | ∃ g : Fact, g.MadeOf fs ∧ g.blank = f}.Finite := by
  obtain ⟨bound, hbound⟩ := exists_arity fs
  let atoms : Set Atom := {a | a ∈ fs.flatMap fun f => f.args.map Atom.blank}
  have hatoms : atoms.Finite := List.finite_toSet _
  have hfunctors : {functor : String | functor ∈ fs.map Fact.functor}.Finite := List.finite_toSet _
  refine ((hfunctors.prod (finite_lists hatoms bound)).image fun x => ⟨x.1, x.2⟩).subset ?_
  rintro _ ⟨f, hf, rfl⟩
  obtain ⟨g, hg, hfunctor, harity⟩ := hf.predicate
  refine ⟨(f.functor, f.args.map Atom.blank), ⟨?_, ?_, fun a ha => ?_⟩, rfl⟩
  · exact List.mem_map.2 ⟨g, hg, hfunctor.symm⟩
  · rw [List.length_map]
    exact Nat.le_trans (Nat.le_of_eq harity) (hbound g hg)
  · obtain ⟨b, hb, rfl⟩ := List.mem_map.1 ha
    obtain ⟨g', hg', b', hb', hblank⟩ := hf.args b hb
    exact List.mem_flatMap.2 ⟨g', hg', List.mem_map.2 ⟨b', hb', hblank.symm⟩⟩

private theorem length_ofNames_le (names : List VarName) :
    (Numbering.ofNames names).length ≤ names.length := by
  suffices ∀ seen : Numbering, (names.foldl Numbering.meet seen).length ≤ seen.length + names.length by
    simpa [Numbering.ofNames] using this []
  induction names with
  | nil => exact fun _ => Nat.le_refl _
  | cons name names ih =>
    intro seen
    have hmeet : (seen.meet name).length ≤ seen.length + 1 := by
      rw [Numbering.meet]
      split
      · exact Nat.le_succ _
      · simp
    have hrest := ih (seen.meet name)
    rw [List.foldl_cons, List.length_cons]
    omega

private theorem length_occurring_le {arity : Nat} {solution : Solution}
    (bounded : ∀ g ∈ solution, g.fact.arity ≤ arity) :
    (occurring solution).length ≤ solution.length * arity := by
  induction solution with
  | nil => exact Nat.zero_le _
  | cons g rest ih =>
    rw [List.forall_mem_cons] at bounded
    have hfirst : g.fact.varNames.length ≤ g.fact.arity := by
      rw [Fact.varNames, List.length_map]
      exact List.length_filterMap_le _ _
    have hrest := ih bounded.2
    rw [occurring, List.flatMap_cons, List.length_append, List.length_cons, Nat.succ_mul]
    rw [occurring] at hrest
    have := bounded.1
    omega

/-- Solutions with a bounded number of goals that are made of some facts have finitely many
patterns. -/
private theorem finite_patterns (fs : List Fact) (bound : Nat) :
    {x | ∃ solution : Solution, solution.length ≤ bound ∧
      (∀ g ∈ solution, g.fact.MadeOf fs) ∧ pattern solution = x}.Finite := by
  obtain ⟨arity, harity⟩ := exists_arity fs
  have hgoals : {x : Bool × Fact | x.2 ∈ {f | ∃ g : Fact, g.MadeOf fs ∧ g.blank = f}}.Finite :=
    (Set.finite_univ.prod (finite_blanks fs)).subset fun x hx => ⟨trivial, hx⟩
  refine ((finite_lists hgoals bound).prod
    (finite_lists (Set.finite_lt_nat (bound * arity)) (bound * arity))).subset ?_
  rintro _ ⟨solution, hlength, hmade, rfl⟩
  have hoccurring : (occurring solution).length ≤ bound * arity := by
    refine Nat.le_trans (length_occurring_le fun g hg => ?_) (Nat.mul_le_mul_right arity hlength)
    obtain ⟨f, hf, -, heq⟩ := (hmade g hg).predicate
    exact Nat.le_trans (Nat.le_of_eq heq) (harity f hf)
  refine ⟨⟨by simpa [pattern] using hlength, fun x hx => ?_⟩, ⟨?_, fun n hn => ?_⟩⟩
  · obtain ⟨g, hg, rfl⟩ := List.mem_map.1 hx
    exact ⟨g.fact, hmade g hg, rfl⟩
  · rw [pattern, numbering, List.length_map]
    exact hoccurring
  · obtain ⟨name, hname, rfl⟩ := List.mem_map.1 hn
    have hlt : (Numbering.ofNames (occurring solution)).number name <
        (Numbering.ofNames (occurring solution)).length :=
      List.idxOf_lt_length_of_mem (Numbering.mem_ofNames.2 hname)
    exact Nat.lt_of_lt_of_le hlt (Nat.le_trans (length_ofNames_le _) hoccurring)

/-- There are only so many solutions with a bounded number of goals, all made of some facts, of which
no two look alike. -/
theorem exists_bound (fs : List Fact) (bound : Nat) :
    ∃ most, ∀ solutions : List Solution,
      (∀ solution ∈ solutions, solution.length ≤ bound ∧ ∀ g ∈ solution, g.fact.MadeOf fs) →
      (solutions.Pairwise fun a b => looksLike a b = false) → solutions.length ≤ most := by
  classical
  refine ⟨(finite_patterns fs bound).toFinset.card, fun solutions short unlike => ?_⟩
  have hnodup : (solutions.map pattern).Nodup := by
    refine List.pairwise_map.2 (unlike.imp fun hunlike heq => ?_)
    rw [looksLike_of_pattern heq] at hunlike
    exact Bool.noConfusion hunlike
  rw [← List.length_map pattern, ← List.toFinset_card_of_nodup hnodup]
  refine Finset.card_le_card fun x hx => ?_
  rw [List.mem_toFinset, List.mem_map] at hx
  obtain ⟨solution, hmem, rfl⟩ := hx
  rw [Set.Finite.mem_toFinset]
  exact ⟨solution, (short solution hmem).1, (short solution hmem).2, rfl⟩

/-! ### Expanding -/

/-- The goals of a solution are made of some facts, and none of them is a built-in. -/
def Grown (s : Setting) (fs : List Fact) (solution : Solution) : Prop :=
  ∀ g ∈ solution, g.fact.MadeOf fs ∧ s.isBuiltin g.fact = false

/-- The clauses of a program are among some facts, and their bodies call no built-in. -/
structure CallsUser (s : Setting) (fs : List Fact) : Prop where
  facts : ∀ key, ∀ c ∈ s.program.candidates key, ∀ f ∈ c.facts, f ∈ fs
  user : ∀ key, ∀ c ∈ s.program.candidates key, ∀ f ∈ c.body, s.isBuiltin f = false

variable {s : Setting} {fs : List Fact} {l : Ledger} {a child : Solution}

/-- Without memo, what a solution is expanded into is made of the same facts. -/
theorem Grown.expand (calls : CallsUser s fs) (unmemoized : l.memo.enabled = []) (h : Grown s fs a)
    (mem : child ∈ (Search.expand s l a).1) : Grown s fs child := by
  have huser : ∀ d ∈ child, s.isBuiltin d.fact = false :=
    predicates_of_mem_expand (P := fun functor arity => s.registry.contains functor arity = false)
      (fun g hg => (h g hg).2) calls.user mem
  refine fun d hd => ⟨?_, huser d hd⟩
  obtain ⟨before, g, behind, head, body, b, rfl, -, hresolvent, hb, rfl⟩ := exists_of_mem_expand mem
  obtain ⟨hgoal, hgoalUser⟩ := h g (by simp)
  cases hresolvent with
  | value _ builtin _ _ => exact absurd builtin (by simp [hgoalUser])
  | recorded _ found => simp [cachedTuple?, Memo.isEnabled, unmemoized] at found
  | @renamed c start _ candidate _ _ =>
    have hfacts (f : Fact) (hf : f ∈ c.facts) : (f.rename (c.names.fresh start)).MadeOf fs :=
      (Fact.MadeOf.of_mem (calls.facts _ c candidate f hf)).rename _
    have hyielding : b.Yielding fun u => ∃ f ∈ fs, Atom.lit u ∈ f.args :=
      Bindings.yielding_of_unify (fun _ hu => (hfacts c.head List.mem_cons_self).literal_mem hu)
        (fun _ hu => hgoal.literal_mem hu) hb
    rcases mem_discharge ((compact_fst _ _).2.1.subset hd) with ⟨old, hold, heq⟩ | hnew
    · rw [heq]
      exact (h old hold).1.substitute hyielding
    · obtain ⟨_, hrenamed, heq⟩ := List.mem_map.1 hnew
      obtain ⟨f, hf, rfl⟩ := List.mem_map.1 hrenamed
      rw [← heq]
      exact (hfacts f (List.mem_cons_of_mem _ hf)).substitute hyielding

/-! ### Passes -/

namespace Listing

variable {p : Listing} {earlier : List Solution} {solution : Solution}
  {behind : Queue (Nat × Solution)} {stopEarly : Bool}

/-- No two look alike of the solutions that were expanded and those that wait, and all of them have
been made. -/
structure Unlike (earlier : List Solution) (p : Listing) : Prop where
  pairwise : (earlier ++ p.waiting).Pairwise fun a b => looksLike a b = false
  made : ∀ a ∈ earlier ++ p.waiting, a ∈ p.made

theorem Unlike.takeIn (h : Unlike earlier p) (child : Solution) :
    Unlike earlier (p.takeIn child) := by
  have hmade : ∀ a ∈ earlier ++ p.waiting, a ∈ child :: p.made :=
    fun a ha => List.mem_cons_of_mem _ (h.made a ha)
  cases hknown : p.isKnown child with
  | true =>
    have hwaiting : (p.takeIn child).waiting = p.waiting := by
      rw [Listing.takeIn, if_pos hknown]
      rfl
    exact ⟨hwaiting ▸ h.pairwise, hwaiting ▸ hmade⟩
  | false =>
    rcases p.takeIn_cases child with ⟨hknown', -, -⟩ | ⟨-, hwaiting, -⟩ | ⟨-, hwaiting, -⟩
    · simp [hknown] at hknown'
    · have hunlike : ∀ a ∈ earlier ++ p.waiting, looksLike a child = false := fun a ha =>
        Bool.eq_false_iff.2 (List.any_eq_false.1 hknown a (h.made a ha))
      constructor
      · rw [hwaiting, ← List.append_assoc]
        exact List.pairwise_append.2 ⟨h.pairwise, List.pairwise_singleton _ _, by simpa using hunlike⟩
      · rw [hwaiting, ← List.append_assoc, made_takeIn]
        exact List.forall_mem_append.2 ⟨hmade, by simp⟩
    · exact ⟨hwaiting ▸ h.pairwise, hwaiting ▸ hmade⟩

/-- A pass expands a solution that looks like none expanded before. -/
theorem Unlike.advance (h : Unlike earlier p) (s : Setting)
    (next : p.base.next? stopEarly = some (solution, behind)) :
    Unlike (earlier ++ [solution]) (p.advance s solution behind) := by
  have hwaiting : earlier ++ p.waiting =
      earlier ++ [solution] ++ (p.popped s solution behind).waiting := by
    rw [waiting_of_next? next, List.append_assoc, List.singleton_append]
    rfl
  exact advance_induction ⟨hwaiting ▸ h.pairwise, hwaiting ▸ h.made⟩
    fun _ child _ hq => hq.takeIn child

/-- A run that goes on has expanded a solution in every pass, no two of which look alike. -/
theorem Unlike.exists_run (h : Unlike [] p) {passes : Nat}
    (going : (run s stopEarly none passes p).1 = false) :
    ∃ earlier : List Solution, earlier.length = passes ∧
      Unlike earlier (run s stopEarly none passes p).2 ∧
      ∀ a ∈ earlier, ∃ before, a ∈ (run s stopEarly none before p).2.waiting := by
  induction passes with
  | zero => exact ⟨[], rfl, h, by simp⟩
  | succ passes ih =>
    obtain ⟨earlier, hlength, hunlike, hwaited⟩ := ih (going_of_le going (Nat.le_succ _))
    obtain ⟨solution, behind, hnext, hrun⟩ := run_succ_of_going going
    refine ⟨earlier ++ [solution], by simp [hlength], hrun ▸ hunlike.advance s hnext, ?_⟩
    refine List.forall_mem_append.2 ⟨hwaited, fun a ha => ?_⟩
    obtain rfl := List.mem_singleton.1 ha
    exact ⟨passes, by simp [waiting_of_next? hnext]⟩

/-- A listing without memo in which everything that waits is made of some facts. -/
structure OfFacts (s : Setting) (fs : List Fact) (p : Listing) : Prop where
  unmemoized : p.base.ledger.memo.enabled = []
  waiting : ∀ a ∈ p.waiting, Grown s fs a

theorem OfFacts.advance (calls : CallsUser s fs) (h : OfFacts s fs p)
    (next : p.base.next? stopEarly = some (solution, behind)) :
    OfFacts s fs (p.advance s solution behind) := by
  refine ⟨(enabled_advance s p solution behind).trans h.unmemoized, ?_⟩
  have hcons := waiting_of_next? next
  have hsolution : Grown s fs solution := h.waiting solution (by simp [hcons])
  exact forall_waiting_advance hcons h.waiting fun a ha =>
    hsolution.expand (l := p.counted) calls h.unmemoized ha

/-- Runs in which no solution that waits has more than a bounded number of goals come to an end, and
all of them within the same number of passes. -/
theorem exists_ended_of_short (calls : CallsUser s fs) (bound : Nat) :
    ∃ enough, ∀ (stopEarly : Bool) (p : Listing), Unlike [] p → OfFacts s fs p →
      (∀ passes, ∀ a ∈ (run s stopEarly none passes p).2.waiting, a.length ≤ bound) →
      (run s stopEarly none enough p).1 = true := by
  obtain ⟨most, hmost⟩ := exists_bound fs bound
  refine ⟨most + 1, fun stopEarly p unlike ofFacts short => ?_⟩
  refine Bool.eq_true_of_not_eq_false fun going => ?_
  -- A run that goes on after so many passes has expanded more solutions than there are looks.
  obtain ⟨earlier, hlength, hunlike, hwaited⟩ := unlike.exists_run going
  have hle : earlier.length ≤ most := by
    refine hmost earlier (fun a ha => ?_) (List.pairwise_append.1 hunlike.pairwise).1
    obtain ⟨before, hbefore⟩ := hwaited a ha
    have hfacts : OfFacts s fs (run s stopEarly none before p).2 :=
      run_induction ofFacts (fun _ _ _ h next => h.advance calls next) before
    exact ⟨short before a hbefore, fun g hg => (hfacts.waiting a hbefore g hg).1⟩
  omega

end Listing

end Search

end Horn
