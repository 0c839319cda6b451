import Horn.Proofs.Search.EarlyExit
import Horn.Proofs.Search.Pruning
import Horn.Proofs.Search.Trial
import Horn.Proofs.Unification.MostGeneral

/-!
Searches for ground facts.

If the query is ground, all solutions keep it as it is, so it is the only answer there can be:
`Listing.answers_of_rooted`. If the fact that is asked for is a clause without body, the second pass at
the latest finishes a solution, whatever other clauses there are and whatever is memoized, since the fact
is resolved with every clause of its predicate at once: `Listing.exists_finished_soon`.
-/

set_option autoImplicit false
set_option relaxedAutoImplicit false

namespace Horn

/-! ### Ground facts -/

@[simp] theorem Fact.arity_ofLiterals (functor : String) (us : List Literal) :
    (ofLiterals functor us).arity = us.length :=
  List.length_map _

theorem Fact.rename_of_isGround {f : Fact} (h : f.isGround = true) (change : VarName → VarName) :
    f.rename change = f := by
  obtain ⟨us, hus⟩ := Fact.isGround_iff_literals?.1 h
  rw [Fact.literals?_eq_some_iff.1 hus, Fact.rename, Fact.ofLiterals, List.map_map]
  rfl

namespace Bindings

theorem substitute_of_isGround {f : Fact} (h : f.isGround = true) (b : Bindings) :
    b.substitute f = f := by
  obtain ⟨us, hus⟩ := Fact.isGround_iff_literals?.1 h
  rw [Fact.literals?_eq_some_iff.1 hus, substitute, Fact.ofLiterals, List.map_map]
  rfl

theorem respects_of_isGround {f : Fact} (h : f.isGround = true) (b : Bindings) :
    b.respects f = true := by
  refine List.all_eq_true.2 fun a ha => ?_
  cases a with
  | lit _ => rfl
  | var v => exact absurd (List.all_eq_true.1 h _ ha) (by simp [Atom.isConstant])

end Bindings

/-- What equals a ground fact is ground, with equal literals. -/
theorem Fact.exists_of_beq_isGround {f g : Fact} (h : (f == g) = true) (ground : g.isGround = true) :
    ∃ us vs, f = ofLiterals g.functor us ∧ g = ofLiterals g.functor vs ∧ (us == vs) = true := by
  obtain ⟨vs, hvs⟩ := isGround_iff_literals?.1 ground
  have hg := literals?_eq_some_iff.1 hvs
  obtain ⟨functor, args⟩ := f
  have hshape : (⟨functor, args⟩ : Fact).sameShape g = true := by
    have halike : alikeAll [⟨functor, args⟩] [g] = true := h
    rw [alikeAll, Bool.and_eq_true, List.isEqv, Bool.and_eq_true] at halike
    exact halike.1.1
  rw [sameShape, Bool.and_eq_true, beq_iff_eq, hg] at hshape
  obtain ⟨rfl, hargs⟩ := hshape
  have hliterals : ∃ us : List Literal, args = us.map Atom.lit ∧ (us == vs) = true := by
    change args.isEqv (vs.map Atom.lit) Atom.sameShape = true at hargs
    clear hvs hg h
    induction args generalizing vs with
    | nil =>
      cases vs with
      | nil => exact ⟨[], rfl, rfl⟩
      | cons v vs => simp at hargs
    | cons a args ih =>
      cases vs with
      | nil => simp at hargs
      | cons v vs =>
        simp only [List.map_cons, List.isEqv, Bool.and_eq_true] at hargs
        obtain ⟨us, rfl, hus⟩ := ih vs hargs.2
        cases a with
        | var _ => simp [Atom.sameShape] at hargs
        | lit u => exact ⟨u :: us, rfl, by simp [show (u == v) = true from hargs.1, hus]⟩
  obtain ⟨us, rfl, hus⟩ := hliterals
  exact ⟨us, vs, rfl, hg, hus⟩

namespace Search

variable {s : Setting} {l : Ledger}

/-! ### Ground goals -/

private theorem discharge_of_isGround {solution : Solution}
    (ground : ∀ g ∈ solution, g.fact.isGround = true) (b : Bindings) (body : List Fact)
    (position : Nat) : discharge b body position solution = discharge ∅ body position solution := by
  have hgoal (g : Goal) (hg : g.fact.isGround = true) : g.substitute b = g.substitute ∅ := by
    rw [Goal.substitute_eq, Goal.substitute_eq, Bindings.substitute_of_isGround hg,
      Bindings.substitute_of_isGround hg]
  induction solution generalizing position with
  | nil => cases position <;> rfl
  | cons g behind ih =>
    rw [List.forall_mem_cons] at ground
    cases position with
    | zero =>
      have hbehind : behind.map (Goal.substitute b) = behind.map (Goal.substitute ∅) :=
        List.map_congr_left fun d hd => hgoal d (ground.2 d hd)
      rw [discharge, discharge, substituteAll_eq, substituteAll_eq, hgoal g ground.1, hbehind]
    | succ position => rw [discharge, discharge, hgoal g ground.1, ih ground.2]

/-- A ground goal of a ground solution is discharged by every ground clause with an equal head. -/
private theorem child?_attempt (memoized : String → Bool) {solution : Solution} (position : Nat)
    (functor : String) {us vs : List Literal} {body : List Fact}
    (ground : ∀ g ∈ solution, g.fact.isGround = true) (equal : (us == vs) = true)
    (bodyGround : ∀ f ∈ body, f.isGround = true) (defined : ∀ f ∈ body, s.isDefined f = true) :
    (attempt s memoized solution position (.ofLiterals functor us) (.ofLiterals functor vs)
        body).child? =
      let child := (compact memoized (discharge ∅ body position solution)).1
      if hasPending child || isAnswer child then some child else none := by
  have hvalues : ((Fact.ofLiterals functor vs).values (fun _ => default) ==
      (Fact.ofLiterals functor us).values fun _ => default) = true := by
    simpa using BEq.symm equal
  have hfunctor : (Fact.ofLiterals functor vs).functor = (Fact.ofLiterals functor us).functor := rfl
  obtain ⟨b, hb, -⟩ := Bindings.exists_unify hfunctor hvalues (Fact.admits_ofLiterals _ _ _)
    (Fact.admits_ofLiterals _ _ _)
  have hbody : body.map b.substitute = body :=
    (List.map_congr_left fun f hf => Bindings.substitute_of_isGround (bodyGround f hf) b).trans
      (List.map_id body)
  rw [attempt, hb]
  simp only
  rw [derive_eq_discharged
      (List.all_eq_true.2 fun f hf => Bindings.respects_of_isGround (bodyGround f hf) b)
      (fun f hf => by rw [Bindings.substitute_of_isGround (bodyGround f hf)]; exact defined f hf)
      (fun g hg => Bindings.respects_of_isGround (ground g hg) b),
    hbody, discharge_of_isGround ground]
  rfl

/-- What a search for a ground fact runs on: the query has one clause, which calls the fact, and the fact
is not a built-in. -/
structure Asks (s : Setting) (query functor : String) (us : List Literal) : Prop where
  queryUser : s.isBuiltin (.ofLiterals query us) = false
  user : s.isBuiltin (.ofLiterals functor us) = false
  clauses : s.program.candidates (Fact.ofLiterals query us).key =
    [.once (.ofLiterals query us) [.ofLiterals functor us]]
  defined : s.isDefined (.ofLiterals functor us) = true

/-- The solution in which nothing but a ground query is left. -/
def done (query : String) (us : List Literal) : Solution :=
  [⟨.ofLiterals query us, true, 0⟩]

/-- The solution in which the fact is still to be proven. -/
def asked (query functor : String) (us : List Literal) : Solution :=
  [⟨.ofLiterals query us, true, 0⟩, .pending 1 (.ofLiterals functor us)]

variable {query functor : String} {us vs : List Literal}

private theorem eq_of_cachedTuple? {values : List Literal}
    (h : cachedTuple? l (.ofLiterals functor us) = some values) : values = us := by
  rw [cachedTuple?] at h
  split at h
  · obtain ⟨t, -, ht⟩ := Option.bind_eq_some_iff.1 h
    change t.find? (us.map Atom.lit) = some values at ht
    rw [Memo.Trie.find?_map_lit] at ht
    split at ht
    · exact (Option.some.inj ht).symm
    · cases ht
  · cases h

private theorem isAnswer_done (query : String) (us : List Literal) : isAnswer (done query us) = true :=
  Fact.isGround_ofLiterals query us

private theorem substitute_ofLiterals (b : Bindings) (functor : String) (us : List Literal)
    (resolved : Bool) (depth : Nat) :
    (⟨.ofLiterals functor us, resolved, depth⟩ : Goal).substitute b =
      ⟨.ofLiterals functor us, resolved, depth⟩ := by
  rw [Goal.substitute_eq, Bindings.substitute_of_isGround (Fact.isGround_ofLiterals _ _)]

private theorem compact_query (memoized : String → Bool) :
    (compact memoized (discharge ∅ [] 0 [.pending 0 (.ofLiterals query us)])).1 = done query us := by
  rw [discharge, Goal.pending, substitute_ofLiterals, compact_cons]
  rfl

private theorem compact_call (memoized : String → Bool) :
    (compact memoized (discharge ∅ [.ofLiterals functor us] 0
      [.pending 0 (.ofLiterals query us)])).1 = asked query functor us := by
  rw [discharge, Goal.pending, substitute_ofLiterals, compact_cons]
  rfl

private theorem compact_asked (memoized : String → Bool) :
    (compact memoized (discharge ∅ [] 1 (asked query functor us))).1 = done query us := by
  rw [asked, discharge, discharge, Goal.pending, substitute_ofLiterals, substitute_ofLiterals,
    compact_cons]
  cases hmemo : memoized (Fact.ofLiterals functor us).key <;>
    simp [dropDischarged, isAwaited, pendingBelow, substituteAll, substituted?, hasPending, done]

private theorem isGround_asked : ∀ g ∈ asked query functor us, g.fact.isGround = true := by
  simp [asked, Goal.pending, Fact.isGround_ofLiterals]

/-- The query is answered from the memo, or it is replaced by the fact. -/
private theorem expand_query (h : Asks s query functor us) (l : Ledger) :
    (expand s l [.pending 0 (.ofLiterals query us)]).1 = [done query us] ∨
      (expand s l [.pending 0 (.ofLiterals query us)]).1 = [asked query functor us] := by
  have hground : ∀ g ∈ [Goal.pending 0 (.ofLiterals query us)], g.fact.isGround = true := by
    simpa [Goal.pending] using Fact.isGround_ofLiterals query us
  have hchoose : choose s [.pending 0 (.ofLiterals query us)] = some (.clauses 0) :=
    choose_clauses_eq (show ∀ d ∈ ([] : Solution), d.resolved = true by simp) rfl
      (by simpa [pending, Goal.pending] using h.queryUser)
  rw [expand_fst hchoose (g := .pending 0 (.ofLiterals query us)) rfl, clausesFor]
  simp only [Goal.pending, h.queryUser, Bool.false_eq_true, if_false]
  cases hcached : cachedTuple? l (.ofLiterals query us) with
  | some values =>
    left
    obtain rfl := eq_of_cachedTuple? hcached
    have hchild := child?_attempt (s := s) l.memo.isEnabled 0 query hground (BEq.refl values)
      (List.forall_mem_nil _) (List.forall_mem_nil _)
    simp only [compact_query, isAnswer_done, Bool.or_true, if_true] at hchild
    exact List.filterMap_cons_some hchild
  | none =>
    right
    have hclauses : renamedClauses s l (.ofLiterals query us) =
        [(.ofLiterals query us, [.ofLiterals functor us])] := by
      rw [renamedClauses, h.clauses]
      simp [renameClauses, Clause.renameApart, Clause.once,
        Fact.rename_of_isGround (Fact.isGround_ofLiterals _ _)]
    have hchild := child?_attempt (s := s) l.memo.isEnabled 0 query hground (BEq.refl us)
      (List.forall_mem_singleton.2 (Fact.isGround_ofLiterals functor us))
      (List.forall_mem_singleton.2 h.defined)
    have hpending : hasPending (asked query functor us) = true := rfl
    simp only [compact_call, hpending, Bool.true_or, if_true] at hchild
    rw [hclauses]
    exact List.filterMap_cons_some hchild

/-- The fact is answered from the memo or by a clause, and no more solutions are made than it has
clauses. -/
private theorem expand_asked (h : Asks s query functor us) (l : Ledger) {c : Clause}
    (candidate : c ∈ s.program.candidates (Fact.ofLiterals functor us).key)
    (head : c.head = .ofLiterals functor vs) (body : c.body = []) (equal : (us == vs) = true) :
    done query us ∈ (expand s l (asked query functor us)).1 ∧
      (expand s l (asked query functor us)).1.length ≤
        (s.program.candidates (Fact.ofLiterals functor us).key).length := by
  have hchoose : choose s (asked query functor us) = some (.clauses 1) :=
    choose_clauses_eq
      (show ∀ d ∈ ([⟨.ofLiterals query us, true, 0⟩] : Solution), d.resolved = true by simp) rfl
      (by simpa [pending, Goal.pending] using h.user)
  have hchild {ws : List Literal} (hequal : (us == ws) = true) :
      (attempt s l.memo.isEnabled (asked query functor us) 1 (.ofLiterals functor us)
        (.ofLiterals functor ws) []).child? = some (done query us) := by
    rw [child?_attempt _ _ _ isGround_asked hequal (by simp) (by simp)]
    simp only [compact_asked, isAnswer_done, Bool.or_true, if_true]
  have hpos := List.length_pos_of_mem candidate
  rw [expand_fst hchoose (g := .pending 1 (.ofLiterals functor us)) rfl, clausesFor]
  simp only [Goal.pending, h.user, Bool.false_eq_true, if_false]
  cases hcached : cachedTuple? l (.ofLiterals functor us) with
  | some values =>
    obtain rfl := eq_of_cachedTuple? hcached
    refine ⟨?_, Nat.le_trans (List.length_filterMap_le _ _) hpos⟩
    exact List.mem_filterMap.2 ⟨_, List.mem_singleton_self _, hchild (BEq.refl values)⟩
  | none =>
    constructor
    · obtain ⟨start, -, hrenamed⟩ := exists_mem_renameClauses candidate l.nextVar
      refine List.mem_filterMap.2 ⟨_, List.mem_map.2 ⟨_, hrenamed, rfl⟩, ?_⟩
      have hhead : (c.renameApart start).1.head = .ofLiterals functor vs := by
        change c.head.rename _ = _
        rw [head, Fact.rename_of_isGround (Fact.isGround_ofLiterals _ _)]
      have hbody : (c.renameApart start).1.body = [] := by
        change c.body.map _ = _
        rw [body, List.map_nil]
      rw [hhead, hbody]
      exact hchild equal
    · refine Nat.le_trans (List.length_filterMap_le _ _) (Nat.le_of_eq ?_)
      rw [renamedClauses, List.length_map, length_renameClauses]

/-! ### Passes -/

/-- What the open solution to take first is as long as none is finished. -/
theorem exists_next? {p : Progress} {number : Nat} {solution : Solution}
    {rest : List (Nat × Solution)} (opened : p.opened.toList = (number, solution) :: rest)
    (unfinished : p.firstFinished = none) :
    ∃ behind, behind.toList = rest ∧ ∀ stopEarly, p.next? stopEarly = some (solution, behind) := by
  cases hpop : p.opened.pop? with
  | none => exact absurd (Queue.pop?_eq_none_iff.1 hpop) (by simp [opened])
  | some entry =>
    obtain ⟨⟨number', solution'⟩, behind⟩ := entry
    rw [Queue.toList_of_pop? hpop, List.cons.injEq, Prod.mk.injEq] at opened
    obtain ⟨⟨rfl, rfl⟩, hrest⟩ := opened
    refine ⟨behind, hrest, fun stopEarly => ?_⟩
    rw [Progress.next?, hpop, unfinished]
    simp

namespace Listing

variable {p : Listing}

/-- As long as no solution is finished, all that were made have open goals. -/
def Undecided (p : Listing) : Prop :=
  p.base.firstFinished = none → ∀ a ∈ p.made, hasPending a = true

theorem Undecided.takeIn (h : Undecided p) (child : Solution) : Undecided (p.takeIn child) := by
  intro hfirst
  cases hknown : p.isKnown child with
  | true =>
    rw [Listing.takeIn, if_pos hknown] at hfirst ⊢
    obtain ⟨a, ha, hlike⟩ := List.any_eq_true.1 hknown
    refine List.forall_mem_cons.2 ⟨?_, h hfirst⟩
    rw [← hasPending_eq_of_looksLike hlike]
    exact h hfirst a ha
  | false =>
    rw [Listing.takeIn, if_neg (by simp [hknown])] at hfirst ⊢
    simp only [Progress.file] at hfirst
    cases hpending : hasPending child with
    | true =>
      rw [if_pos hpending] at hfirst
      exact List.forall_mem_cons.2 ⟨hpending, h hfirst⟩
    | false =>
      rw [if_neg (by simp [hpending])] at hfirst
      cases hold : p.base.firstFinished <;> simp [hold] at hfirst

theorem Undecided.advance (h : Undecided p) (s : Setting) (solution : Solution)
    (behind : Queue (Nat × Solution)) : Undecided (p.advance s solution behind) :=
  advance_induction h fun _ child _ hq => hq.takeIn child

/-- Once a solution without open goals is made, a first one is finished. -/
theorem Undecided.exists_hasFirst (h : Undecided p) (unfinished : p.base.firstFinished = none)
    {solution child : Solution} {behind : Queue (Nat × Solution)} (alone : behind.toList = [])
    (mem : child ∈ (expand s p.counted solution).1) (closed : hasPending child = false) :
    ∃ k, HasFirst k (p.advance s solution behind) ∧
      (p.advance s solution behind).ahead k + 1 ≤ (expand s p.counted solution).1.length := by
  have hundecided := h.advance s solution behind
  rw [advance_eq] at hundecided ⊢
  have hmade : child ∈ ((expand s p.counted solution).1.foldl Listing.takeIn
      (p.popped s solution behind)).made :=
    mem_made_foldl.2 (.inl mem)
  obtain ⟨k, hfirst, hahead⟩ := exists_hasFirst_foldl (p := p.popped s solution behind) unfinished
    fun hnone => absurd (hundecided hnone child hmade) (by simp [closed])
  refine ⟨k, hfirst, Nat.le_trans hahead (Nat.le_of_eq ?_)⟩
  change behind.toList.length + _ = _
  rw [alone, List.length_nil, Nat.zero_add]

/-- A search for a fact that is a clause has finished a first solution after two passes at most, and what
is open ahead of it comes from the other clauses of the predicate. -/
theorem exists_finished_soon (h : Asks s query functor us) (l : Ledger) {c : Clause}
    (candidate : c ∈ s.program.candidates (Fact.ofLiterals functor us).key)
    (head : c.head = .ofLiterals functor vs) (body : c.body = []) (equal : (us == vs) = true) :
    ∃ passes p k, (∀ stopEarly, run s stopEarly none passes (start l (.ofLiterals query us)) =
        (false, p)) ∧
      HasFirst k p ∧ p.base.ledger.stats.iterations = l.stats.iterations + passes ∧
      passes + p.ahead k ≤ (s.program.candidates (Fact.ofLiterals functor us).key).length + 1 := by
  have hpos := List.length_pos_of_mem candidate
  have hstart : Undecided (start l (.ofLiterals query us)) := by
    intro _ a ha
    obtain rfl := List.mem_singleton.1 ha
    rfl
  let root : Solution := [.pending 0 (.ofLiterals query us)]
  have hopen : (start l (.ofLiterals query us)).base.opened.toList = [(0, root)] := rfl
  obtain ⟨behind, hbehind, hnext⟩ := exists_next? hopen rfl
  let first := (start l (.ofLiterals query us)).advance s root behind
  have hrun (stopEarly : Bool) : run s stopEarly none 1 (start l (.ofLiterals query us)) =
      (false, first) := by
    rw [run_succ_of_next rfl (hnext stopEarly)]
    rfl
  have hfirst : first.base.ledger.stats.iterations = l.stats.iterations + 1 :=
    iterations_advance s _ root behind
  -- The first pass answers the query from the memo, or puts the fact in its place.
  rcases expand_query h (start l (.ofLiterals query us)).counted with hdone | hasked
  · obtain ⟨k, hk, hahead⟩ : ∃ k, HasFirst k first ∧ first.ahead k + 1 ≤ [done query us].length :=
      hdone ▸ hstart.exists_hasFirst rfl hbehind (hdone ▸ List.mem_singleton_self _) rfl
    refine ⟨1, first, k, hrun, hk, hfirst, ?_⟩
    rw [List.length_singleton] at hahead
    omega
  · have hadvance : first = (Listing.popped s (start l (.ofLiterals query us)) root behind).takeIn
        (asked query functor us) := by
      change Listing.advance _ _ _ _ = _
      rw [advance_eq, hasked]
      rfl
    have hunknown : ¬(Listing.popped s (start l (.ofLiterals query us)) root behind).isKnown
        (asked query functor us) = true := by
      have hlike : looksLike root (asked query functor us) = false :=
        Bool.eq_false_iff.2 fun hlike => absurd (length_eq_of_looksLike hlike) (by simp [root, asked])
      change ¬([root].any (looksLike · (asked query functor us))) = true
      simp [hlike]
    have hopened : first.base.opened.toList = [(1, asked query functor us)] := by
      rw [hadvance, Listing.takeIn, if_neg hunknown]
      change (behind.push (1, asked query functor us)).toList = _
      rw [Queue.toList_push, hbehind, List.nil_append]
    have hunfinished : first.base.firstFinished = none := by
      rw [hadvance, Listing.takeIn, if_neg hunknown]
      rfl
    obtain ⟨behind', hbehind', hnext'⟩ := exists_next? hopened hunfinished
    obtain ⟨hmem, hlength⟩ := expand_asked h first.counted candidate head body equal
    obtain ⟨k, hk, hahead⟩ := (hstart.advance s root behind).exists_hasFirst hunfinished hbehind'
      hmem rfl
    refine ⟨2, first.advance s (asked query functor us) behind', k, fun stopEarly => ?_, hk, ?_, ?_⟩
    · rw [run_add s stopEarly 1 1, hrun, if_neg (by simp), run_succ_of_next rfl (hnext' stopEarly)]
      rfl
    · rw [iterations_advance, hfirst]
    · exact Nat.le_trans (Nat.le_of_eq (Nat.add_comm _ _))
        (Nat.succ_le_succ (Nat.le_trans hahead hlength))

/-! ### Answers -/

/-- The query of every solution that stands is this fact. -/
def Rooted (root : Fact) (p : Listing) : Prop :=
  ∀ a ∈ p.standing, ∀ query ∈ a.head?, query.fact = root

theorem rooted_start (l : Ledger) (root : Fact) : Rooted root (start l root) := by
  intro a ha query hquery
  obtain rfl := List.mem_singleton.1 ha
  obtain rfl := Option.some.inj hquery
  rfl

/-- A ground query stays as it is. -/
theorem Rooted.run {root : Fact} (ground : root.isGround = true) (h : Rooted root p) (s : Setting)
    (stopEarly : Bool) (passes : Nat) : Rooted root (Listing.run s stopEarly none passes p).2 := by
  refine run_induction h (fun p solution behind h next => ?_) passes
  have hwaiting := waiting_of_next? next
  intro a ha query hquery
  rw [advance_eq] at ha
  rcases mem_standing_foldl ha with hchild | hold
  · obtain ⟨before, g, rest, head, body, b, rfl, -, -, -, rfl⟩ := exists_of_mem_expand hchild
    obtain ⟨old, hold, heq⟩ := exists_query_of_compact hquery
    rw [heq, h _ (List.mem_append_left _ (hwaiting ▸ List.mem_cons_self)) old hold,
      Bindings.substitute_of_isGround ground]
  · refine h a ?_ query hquery
    rw [standing, hwaiting]
    exact List.mem_append.2 ((List.mem_append.1 hold).imp_left (List.mem_cons_of_mem _))

/-- Once a solution is finished, a ground query is the only answer. -/
theorem answers_of_rooted (rooted : Rooted (.ofLiterals query us) p) (answered : Answered p)
    (finished : p.base.firstFinished ≠ none) (stopEarly : Bool) : p.answers stopEarly = [us] := by
  have hall : ∀ values ∈ p.base.finished.reverse.filterMap Progress.tuple?, values = us := by
    intro values hvalues
    obtain ⟨a, ha, htuple⟩ := List.mem_filterMap.1 hvalues
    obtain ⟨root, hroot, hliterals⟩ := Option.bind_eq_some_iff.1 htuple
    have hmem : a ∈ p.standing := List.mem_append_right _ (List.mem_reverse.1 ha)
    rw [rooted a hmem root hroot, Fact.literals?_eq_some_iff.2 rfl] at hliterals
    exact (Option.some.inj hliterals).symm
  have hne : p.base.finished.reverse.filterMap Progress.tuple? ≠ [] := by
    obtain ⟨a, ha⟩ := List.exists_mem_of_ne_nil _ (answered.nonempty finished)
    obtain ⟨values, hvalues⟩ := answered.tuples a ha
    exact List.ne_nil_of_mem (List.mem_filterMap.2 ⟨a, List.mem_reverse.2 ha, hvalues⟩)
  obtain ⟨values, rest, hcons⟩ := List.exists_cons_of_ne_nil hne
  rw [hcons, List.forall_mem_cons] at hall
  obtain ⟨rfl, hrest⟩ := hall
  have hfilter : rest.filter (fun other => !other == values) = [] :=
    List.filter_eq_nil_iff.2 fun other hother => by simp [hrest other hother]
  rw [answers, hcons, List.eraseDups_cons, hfilter]
  cases stopEarly <;> rfl

end Listing

end Search

end Horn
