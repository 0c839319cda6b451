import Mathlib.Data.List.Pairwise
import Horn.Proofs.Memo.Growth
import Horn.Proofs.Memo.History
import Horn.Proofs.Search.Resolution
import Horn.Proofs.Unification.Selection

/-!
Whether the tuple with which the memo answers a goal unifies with the goal.

A look-up compares literals only: it takes the first recorded tuple that has the literals of the goal at
their places. To unify, a tuple also has to repeat its value where the goal repeats a variable, and to
satisfy the conditions of the goal. Both come to the same for a goal that asks for neither, and for a goal
that the recorded tuples answer in one way at most, which is what a memo is meant for.
-/

set_option autoImplicit false
set_option relaxedAutoImplicit false

namespace Horn

/-- No variable stands at two places, and none has a condition. -/
structure Fact.IsLinear (f : Fact) : Prop where
  single : f.args.Pairwise fun a c => a.sharesName c = false
  free : ∀ v ∈ f.occurrences, v.condition = none

namespace Memo

variable {m : Memo} {goal : Fact} {us ws : List Literal}

/-- A recorded tuple has the literals of a goal at their places. -/
structure Offers (m : Memo) (goal : Fact) (us : List Literal) : Prop where
  cached : m.Caches goal.key us
  answers : Answers goal.args us

/-- The recorded tuples that have the literals of a goal at their places are all equal. -/
def Determines (m : Memo) (goal : Fact) : Prop :=
  ∀ us ws, m.Offers goal us → m.Offers goal ws → (us == ws) = true

/-- The last value of a tuple that is recorded for a key depends on the others alone. -/
def IsFunctional (m : Memo) (key : String) : Prop :=
  ∀ us ws u w, m.Caches key (us ++ [u]) → m.Caches key (ws ++ [w]) → (us == ws) = true →
    (u == w) = true

/-! ### Recorded tuples -/

theorem caches_iff {key : String} : m.Caches key us ↔ (m.trieOf key).contains us = true := by
  rw [Caches, trieOf]
  cases m.trie? key with
  | some trie => simp
  | none => simp

theorem caches_after_iff {history : List Operation} {key : String} :
    (after history).Caches key us ↔ ∃ ws ∈ recorded key history, (ws == us) = true := by
  rw [caches_iff, (denotes_after key history).whole, List.any_eq_true]

/-- A look-up finds a tuple if one is offered. -/
theorem isSome_lookup_of_offers {history : List Operation} (h : (after history).Offers goal us) :
    ((after history).lookup goal.key goal.args).isSome = true := by
  obtain ⟨ws, mem, equal⟩ := caches_after_iff.1 h.cached
  rw [lookup_eq, (denotes_after goal.key history).isSome_find?_iff]
  exact ⟨ws, mem, h.answers.congr (BEq.symm equal)⟩

/-- What a look-up finds is offered, and comes first of all that is offered. -/
theorem offers_of_lookup {history : List Operation} {values : List Literal}
    (h : (after history).lookup goal.key goal.args = some values) :
    (after history).Offers goal values ∧ ∀ us, (after history).Offers goal us →
      (values == us) = true ∨ Precedes (recorded goal.key history) values us := by
  rw [lookup_eq] at h
  obtain ⟨hanswers, ⟨ws, mem, equal⟩, hfirst⟩ := (denotes_after goal.key history).find?_eq_some h
  refine ⟨⟨caches_after_iff.2 ⟨ws, mem, equal⟩, hanswers⟩, fun us hus => ?_⟩
  obtain ⟨vs, mem', equal'⟩ := caches_after_iff.1 hus.cached
  rcases hfirst vs mem' (hus.answers.congr (BEq.symm equal')) with hsame | hbefore
  · exact .inl (BEq.trans hsame equal')
  · exact .inr (hbefore.congr_right equal')

private theorem exists_of_answers {inputs : List Literal} {output : Atom}
    (h : Answers (inputs.map .lit ++ [output]) us) :
    ∃ before u, us = before ++ [u] ∧ (inputs == before) = true := by
  induction inputs generalizing us with
  | nil =>
    obtain ⟨u, _, -, hrest, rfl⟩ := List.forall₂_cons_left_iff.1 h
    obtain rfl := List.forall₂_nil_left_iff.1 hrest
    exact ⟨[], u, rfl, rfl⟩
  | cons input inputs ih =>
    obtain ⟨v, us, htakes, hrest, rfl⟩ := List.forall₂_cons_left_iff.1 h
    obtain ⟨before, u, rfl, equal⟩ := ih hrest
    refine ⟨v :: before, u, rfl, ?_⟩
    rw [List.cons_beq_cons, equal, Bool.and_true]
    exact htakes

/-- The tuples of a functional predicate answer a goal in one way at most if its inputs are literals. -/
theorem IsFunctional.determines (h : m.IsFunctional goal.key)
    (ready : Search.haveInputs goal.args = true) : m.Determines goal := by
  rintro us ws ⟨hus, answers⟩ ⟨hws, answers'⟩
  by_cases hargs : goal.args = []
  · rw [hargs, Answers, List.forall₂_nil_left_iff] at answers answers'
    rw [answers, answers']
    rfl
  · obtain ⟨inputs, output, hargs, -⟩ := Search.haveInputs_append ready hargs
    rw [hargs] at answers answers'
    obtain ⟨before, u, rfl, hbefore⟩ := exists_of_answers answers
    obtain ⟨before', w, rfl, hbefore'⟩ := exists_of_answers answers'
    have hinputs : (before == before') = true := BEq.trans (BEq.symm hbefore) hbefore'
    rw [append_singleton_beq, hinputs, h before before' u w hus hws hinputs]
    rfl

end Memo

/-! ### Unifying a goal with a tuple -/

/-- A goal unifies with a tuple, read as a ground fact. -/
def Fact.UnifiesWith (goal : Fact) (us : List Literal) : Prop :=
  (unify (.ofLiterals goal.functor us) goal).isSome = true

namespace Fact

variable {goal : Fact} {us ws : List Literal}

theorem UnifiesWith.length (h : goal.UnifiesWith us) : goal.arity = us.length := by
  obtain ⟨b, hb⟩ := Option.isSome_iff_exists.1 h
  have harity := (Bindings.unify_eq_some_iff.1 hb).1.2
  rw [← harity, arity, ofLiterals, List.length_map]

theorem UnifiesWith.congr (h : goal.UnifiesWith us) (equal : (us == ws) = true) :
    goal.UnifiesWith ws := by
  have hus : goal.arity = us.length := h.length
  have hws : goal.arity = ws.length := hus.trans (List.length_eq_of_beq equal)
  rw [UnifiesWith, unify_ofLiterals_iff hus, selects_iff_exists_valuation hus] at h
  rw [UnifiesWith, unify_ofLiterals_iff hws, selects_iff_exists_valuation hws]
  obtain ⟨θ, hvalues, hadmits⟩ := h
  exact ⟨θ, BEq.trans hvalues equal, hadmits⟩

/-- A tuple that unifies with a goal has its literals at their places. -/
theorem UnifiesWith.answers (h : goal.UnifiesWith us) : Memo.Answers goal.args us := by
  obtain ⟨hadmits, -⟩ := selects_iff.1 ((unify_ofLiterals_iff h.length).1 h)
  refine List.forall₂_iff_zip.2 ⟨h.length, fun {a u} mem => ?_⟩
  have hplace := hadmits a u mem
  cases a with
  | lit v => exact hplace
  | var v => rfl

/-- Equal values stand at two places if these belong to one variable. -/
private def Agree (p q : Atom × Literal) : Prop :=
  p.1.sharesName q.1 = true → (p.2 == q.2) = true

private instance : Std.Symm Agree where
  symm p q h shared := by
    have hshared : p.1.sharesName q.1 = true := by
      rw [← shared]
      cases p.1 <;> cases q.1 <;> simp [Atom.sharesName, eq_comm]
    exact BEq.symm (h hshared)

/-- To unify with a linear goal a tuple needs the literals at their places only. -/
theorem IsLinear.unifiesWith (linear : goal.IsLinear) (h : Memo.Answers goal.args us) :
    goal.UnifiesWith us := by
  have hlength : goal.args.length = us.length := h.length_eq
  refine (unify_ofLiterals_iff hlength).2 (selects_iff.2 ⟨fun a u mem => ?_, ?_⟩)
  · have htakes := (List.forall₂_iff_zip.1 h).2 mem
    cases a with
    | lit v => exact htakes
    | var v => rw [Atom.admits, linear.free v (mem_occurrences.2 (List.of_mem_zip mem).1), Option.all_none]
  · have hsingle : ((goal.args.zip us).map Prod.fst).Pairwise fun a c => a.sharesName c = false := by
      rw [List.map_fst_zip (Nat.le_of_eq hlength)]
      exact linear.single
    have hplaces : (goal.args.zip us).Pairwise Agree := by
      refine (List.pairwise_map.1 hsingle).imp fun hapart hshared => ?_
      rw [hapart] at hshared
      cases hshared
    intro a u mem c w other
    exact hplaces.forall_of_forall (fun _ _ _ => BEq.rfl) mem other

end Fact

namespace Search

open Memo

/-- If some recorded tuple unifies with a goal of a memoized predicate, the memo answers the goal. It answers
with the first of the recorded tuples that have the literals of the goal at their places. This one unifies
with the goal if and only if it has equal values where the goal repeats a variable, and values that
satisfy the conditions of the goal: it does if the goal is linear, and if the recorded tuples answer the
goal in one way at most, it does unless no recorded tuple unifies with the goal. They answer it in one way
at most if the predicate is functional and the inputs of the goal are literals. -/
theorem hit_unifies (history : List Operation) (l : Ledger) (goal : Fact)
    (reached : l.memo = after history) (memoized : l.memo.isEnabled goal.key = true) :
    ((∃ us, l.memo.Caches goal.key us ∧ goal.UnifiesWith us) →
        ∃ values, cachedTuple? l goal = some values) ∧
      (∀ values, cachedTuple? l goal = some values →
        l.memo.Offers goal values ∧
          (∀ us, l.memo.Offers goal us →
            (values == us) = true ∨ Precedes (recorded goal.key history) values us) ∧
          (goal.UnifiesWith values ↔ goal.selects values = true) ∧
          (goal.IsLinear → goal.UnifiesWith values) ∧
          (l.memo.Determines goal → (∃ us, l.memo.Caches goal.key us ∧ goal.UnifiesWith us) →
            goal.UnifiesWith values)) ∧
      (l.memo.IsFunctional goal.key → haveInputs goal.args = true → l.memo.Determines goal) := by
  rw [cachedTuple?, if_pos memoized, reached]
  refine ⟨?_, fun values hvalues => ?_, IsFunctional.determines⟩
  · rintro ⟨us, hcached, hunifies⟩
    exact Option.isSome_iff_exists.1 (isSome_lookup_of_offers ⟨hcached, hunifies.answers⟩)
  · obtain ⟨hoffers, hfirst⟩ := offers_of_lookup hvalues
    refine ⟨hoffers, hfirst, unify_ofLiterals_iff hoffers.answers.length_eq,
      fun linear => linear.unifiesWith hoffers.answers, ?_⟩
    rintro determined ⟨us, hcached, hunifies⟩
    exact hunifies.congr (determined us values ⟨hcached, hunifies.answers⟩ hoffers)

private def ledgerOf (history : List Operation) : Ledger :=
  { memo := after history, ambient := default, nextVar := 0, stats := .zero }

section Squares

/-- The squares of 2 and 3 are recorded. -/
private def squares : List Operation :=
  [.enable "square/2", .record "square/2" [.integer 2, .integer 4],
    .record "square/2" [.integer 3, .integer 9]]

private def squareOf (input output : Atom) : Fact :=
  ⟨"square", [input, output]⟩

variable {input output : Atom}

private theorem key_squareOf : (squareOf input output).key = "square/2" := by
  with_unfolding_all rfl

private theorem isEnabled_squareOf :
    (ledgerOf squares).memo.isEnabled (squareOf input output).key = true := by
  rw [key_squareOf]
  decide +kernel

private theorem caches_squareOf_iff {us : List Literal} :
    (ledgerOf squares).memo.Caches (squareOf input output).key us ↔
      ([.integer 2, .integer 4] == us) = true ∨ ([.integer 3, .integer 9] == us) = true := by
  have hrecorded : recorded (squareOf input output).key squares =
      [[.integer 2, .integer 4], [.integer 3, .integer 9]] := by
    rw [key_squareOf]
    with_unfolding_all rfl
  rw [ledgerOf, caches_after_iff, hrecorded]
  simp

private theorem isFunctional_squareOf :
    (ledgerOf squares).memo.IsFunctional (squareOf input output).key := by
  intro us ws u w hus hws equal
  have hsplit (x y : Literal) (vs : List Literal) (v : Literal) :
      ([x, y] == vs ++ [v]) = ([x] == vs && y == v) :=
    @append_singleton_beq [x] vs y v
  have hinputs {x y : Literal} (hx : ([x] == us) = true) (hy : ([y] == ws) = true) :
      ([x] == [y]) = true :=
    BEq.trans hx (BEq.trans equal (BEq.symm hy))
  simp only [caches_squareOf_iff, hsplit, Bool.and_eq_true] at hus hws
  rcases hus with ⟨hinput, hu⟩ | ⟨hinput, hu⟩ <;> rcases hws with ⟨hinput', hw⟩ | ⟨hinput', hw⟩
  · exact BEq.trans (BEq.symm hu) hw
  · exact absurd (hinputs hinput hinput') (by decide +kernel)
  · exact absurd (hinputs hinput hinput') (by decide +kernel)
  · exact BEq.trans (BEq.symm hu) hw

/-- The goal `square(3, Y > 5)`, of which the input is a literal, and the linear goal `square(X, Y)` are
answered, and what answers them unifies with them. -/
theorem hit_unifies_squares :
    (let goal := squareOf (.lit (.integer 3)) (.var ⟨.named "Y", some ⟨.gt, .integer 5⟩⟩)
      ∃ values, cachedTuple? (ledgerOf squares) goal = some values ∧ goal.UnifiesWith values) ∧
    (let goal := squareOf (.var ⟨.named "X", none⟩) (.var ⟨.named "Y", none⟩)
      ∃ values, cachedTuple? (ledgerOf squares) goal = some values ∧ goal.UnifiesWith values) := by
  constructor
  · intro goal
    have hnine : ∃ us, (ledgerOf squares).memo.Caches goal.key us ∧ goal.UnifiesWith us :=
      ⟨[.integer 3, .integer 9], caches_squareOf_iff.2 (.inr BEq.rfl),
        (unify_ofLiterals_iff rfl).2 (by decide +kernel)⟩
    obtain ⟨hanswered, hhit, hdetermines⟩ :=
      hit_unifies squares (ledgerOf squares) goal rfl isEnabled_squareOf
    obtain ⟨values, hvalues⟩ := hanswered hnine
    obtain ⟨-, -, -, -, hunifies⟩ := hhit values hvalues
    exact ⟨values, hvalues, hunifies (hdetermines isFunctional_squareOf rfl) hnine⟩
  · intro goal
    have hlinear : goal.IsLinear := ⟨by decide, by decide⟩
    obtain ⟨hanswered, hhit, -⟩ :=
      hit_unifies squares (ledgerOf squares) goal rfl isEnabled_squareOf
    obtain ⟨values, hvalues⟩ := hanswered
      ⟨[.integer 2, .integer 4], caches_squareOf_iff.2 (.inl BEq.rfl),
        hlinear.unifiesWith (.cons rfl (.cons rfl .nil))⟩
    obtain ⟨-, -, -, hunifies, -⟩ := hhit values hvalues
    exact ⟨values, hvalues, hunifies hlinear⟩

end Squares

section OneThenSeven

/-- The tuples `(1)` and `(7)` of a predicate are recorded, in this order. -/
private def oneThenSeven : List Operation :=
  [.enable "p/1", .record "p/1" [.integer 1], .record "p/1" [.integer 7]]

/-- The goal `p(X > 5)`. -/
private def overFive : Fact :=
  ⟨"p", [.var ⟨.named "X", some ⟨.gt, .integer 5⟩⟩]⟩

private theorem key_overFive : overFive.key = "p/1" := by
  with_unfolding_all rfl

private theorem isEnabled_overFive : (ledgerOf oneThenSeven).memo.isEnabled overFive.key = true := by
  rw [key_overFive]
  decide +kernel

private theorem recorded_overFive :
    recorded overFive.key oneThenSeven = [[.integer 1], [.integer 7]] := by
  rw [key_overFive]
  with_unfolding_all rfl

private theorem caches_overFive {us : List Literal} (mem : us ∈ [[Literal.integer 1], [.integer 7]]) :
    (after oneThenSeven).Caches overFive.key us :=
  caches_after_iff.2 ⟨us, recorded_overFive ▸ mem, BEq.rfl⟩

/-- The goal is answered by `(1)`, which was recorded first. -/
private theorem beq_of_cachedTuple_overFive {values : List Literal}
    (found : cachedTuple? (ledgerOf oneThenSeven) overFive = some values) :
    ([.integer 1] == values) = true := by
  rw [cachedTuple?, if_pos isEnabled_overFive] at found
  obtain ⟨⟨hcached, -⟩, hfirst⟩ := offers_of_lookup found
  obtain ⟨us, mem, equal⟩ := caches_after_iff.1 hcached
  rw [recorded_overFive] at mem hfirst
  have hbefore : Precedes [[.integer 1], [.integer 7]] [.integer 1] [.integer 7] :=
    ⟨[], .integer 1, .integer 7, rfl, rfl, by decide +kernel⟩
  rcases hfirst [.integer 1] ⟨caches_overFive (by simp), .cons rfl .nil⟩ with hsame | hafter
  · exact BEq.symm hsame
  · simp only [List.mem_cons, List.not_mem_nil, or_false] at mem
    rcases mem with rfl | rfl
    · exact equal
    · exact absurd hafter (hbefore.congr_right equal).asymm

/-- The goal `p(X > 5)` unifies with `(7)`, but it is answered by `(1)`, with which it does not unify. -/
theorem exists_hit_not_unifies :
    ¬ ∀ (history : List Operation) (l : Ledger) (goal : Fact), l.memo = after history →
      l.memo.isEnabled goal.key = true →
        ((∃ us, l.memo.Caches goal.key us ∧ goal.UnifiesWith us) →
          ∃ values, cachedTuple? l goal = some values ∧ goal.UnifiesWith values) ∧
        ∀ values, cachedTuple? l goal = some values → goal.UnifiesWith values := by
  intro h
  obtain ⟨hanswered, -⟩ := h oneThenSeven (ledgerOf oneThenSeven) overFive rfl isEnabled_overFive
  have hseven : overFive.UnifiesWith [.integer 7] :=
    (unify_ofLiterals_iff rfl).2 (by decide +kernel)
  obtain ⟨values, hfound, hunifies⟩ := hanswered ⟨[.integer 7], caches_overFive (by simp), hseven⟩
  have hone := hunifies.congr (BEq.symm (beq_of_cachedTuple_overFive hfound))
  exact absurd ((unify_ofLiterals_iff rfl).1 hone) (by decide +kernel)

end OneThenSeven

end Search

end Horn
