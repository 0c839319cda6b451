import Horn.Proofs.Forest
import Horn.Proofs.Search.Likeness
import Horn.Proofs.Search.Pending

/-!
Partial solutions that lead to an answer.

A solution leads to a tuple if under some valuation its query comes to that tuple, the conditions in
it hold, and its open goals have a forest of derivations. The clause at the first root of the forest
discharges the first open goal and gives a solution that leads to the same tuple by a smaller forest:
`Leads.exists_child`. Solutions that look alike lead to the same tuples: `Leads.of_looksLike`.
-/

set_option autoImplicit false
set_option relaxedAutoImplicit false

namespace Horn.Search

/-- What the open goals of a solution stand for under a valuation. -/
def owed (θ : Valuation) (solution : Solution) : List Tuple :=
  (pending solution).map fun g => g.fact.tuple θ

/-- Under a valuation the query of a solution comes to a tuple, all conditions hold, and the open
goals have a forest of some size. -/
structure LeadsBy (clauses : List Clause) (answer : List Literal) (n : Nat) (solution : Solution)
    (θ : Valuation) : Prop where
  query : ∀ query ∈ solution.head?, (query.fact.values θ == answer) = true
  admits : ∀ g ∈ solution, g.fact.Admits θ
  forest : Forest clauses n (owed θ solution)

/-- A solution leads to a tuple with a forest of some size. -/
def Leads (clauses : List Clause) (answer : List Literal) (n : Nat) (solution : Solution) : Prop :=
  ∃ θ, LeadsBy clauses answer n solution θ

variable {clauses : List Clause} {answer : List Literal} {n : Nat} {solution : Solution}

/-- Nothing is open if no clause is used any more. -/
theorem Leads.pending_eq_nil (h : Leads clauses answer 0 solution) : pending solution = [] := by
  obtain ⟨θ, -, -, hforest⟩ := h
  generalize howed : owed θ solution = goals at hforest
  cases hforest
  exact List.map_eq_nil_iff.1 howed

/-- A clause is used if something is open. -/
theorem Leads.pos (h : Leads clauses answer n solution) (opened : hasPending solution = true) :
    0 < n := by
  refine Nat.pos_of_ne_zero ?_
  rintro rfl
  exact hasPending_iff.1 opened h.pending_eq_nil

/-- Solutions that look alike lead to the same tuples. -/
theorem Leads.of_looksLike {other : Solution} (h : Leads clauses answer n solution)
    (alike : looksLike solution other = true) : Leads clauses answer n other := by
  obtain ⟨m, hm, -⟩ := Correspondence.exists_of_looksLike alike
  obtain ⟨θ, hquery, hadmits, hforest⟩ := h
  obtain ⟨η, hη⟩ := m.exists_valuation θ
  refine ⟨η, ?_, ?_, ?_⟩
  · intro query hq
    cases hm with
    | nil => simp at hq
    | cons first _ =>
      obtain rfl := Option.some.inj hq
      exact BEq.trans (BEq.symm (first.fact.values hη)) (hquery _ rfl)
  · intro g hg
    obtain ⟨f, hf, hfg⟩ := hm.exists_left hg
    exact hfg.fact.admits hη (hadmits f hf)
  · refine hforest.congr ?_
    rw [owed, owed, List.forall₂_map_left_iff, List.forall₂_map_right_iff]
    exact hm.filter_open.imp fun _ _ hg => ⟨hg.fact.functor, hg.fact.values hη⟩

/-- A clause that yields the first open goal under a valuation discharges it, if all conditions hold
and the predicates of its body are defined. What the goals of the body need and what was needed for
the others is owed then. -/
theorem LeadsBy.exists_discharged {s : Setting} {before behind : Solution} {g : Goal}
    {head : Fact} {body : List Fact} {ζ : Valuation} (memoized : String → Bool)
    (resolved : ∀ d ∈ before, d.resolved = true)
    (query : ∀ query ∈ (before ++ g :: behind).head?, (query.fact.values ζ == answer) = true)
    (admits : ∀ d ∈ before ++ g :: behind, d.fact.Admits ζ)
    (functor : head.functor = g.fact.functor)
    (values : (head.values ζ == g.fact.values ζ) = true)
    (headAdmits : head.Admits ζ) (bodyAdmits : ∀ f ∈ body, f.Admits ζ)
    (defined : ∀ f ∈ body, ∀ b : Bindings, s.isDefined (b.substitute f) = true)
    (forest : Forest clauses n (body.map (Fact.tuple · ζ) ++ owed ζ behind)) :
    ∃ b, unify head g.fact = some b ∧ ∃ proven,
      let child := (compact memoized
        (discharge b (body.map b.substitute) before.length (before ++ g :: behind))).1
      attempt s memoized (before ++ g :: behind) before.length g.fact head body =
        .discharged proven (if hasPending child || isAnswer child then some child else none) ∧
      LeadsBy clauses answer n child ζ := by
  obtain ⟨b, hb, hagree⟩ := Bindings.exists_unify functor values headAdmits (admits g (by simp))
  have hrespects : ∀ f : Fact, f.Admits ζ → b.respects f = true := fun f =>
    Bindings.respects_of_admits hagree
  have hattempt : attempt s memoized (before ++ g :: behind) before.length g.fact head body =
      derive s memoized (before ++ g :: behind) before.length b body := by
    rw [attempt, hb]
  rw [derive_eq_discharged
    (List.all_eq_true.2 fun f hf => hrespects f (bodyAdmits f hf))
    (fun f hf => defined f hf b) (fun d hd => hrespects d.fact (admits d hd))] at hattempt
  refine ⟨b, hb, _, hattempt, ?_⟩
  obtain ⟨-, hsublist, hpending⟩ := compact_fst memoized
    (discharge b (body.map b.substitute) before.length (before ++ g :: behind))
  refine ⟨fun q hq => ?_, fun d hd => ?_, ?_⟩
  · obtain ⟨q', hq', heq⟩ := exists_query_of_compact hq
    rw [heq]
    exact BEq.trans (Bindings.values_substitute_of_agree hagree q'.fact) (query q' hq')
  · rcases mem_discharge (hsublist.subset hd) with ⟨d', hd', heq⟩ | hbody
    · rw [heq]
      exact Bindings.admits_substitute_of_agree hagree (admits d' hd')
    · obtain ⟨f, hf, heq⟩ := List.mem_map.1 hbody
      rw [← heq]
      exact Bindings.admits_substitute_of_agree hagree (bodyAdmits f hf)
  · refine forest.congr ?_
    rw [owed, owed, hpending, pending_discharge, pending_eq_nil resolved, List.map_nil,
      List.nil_append, List.map_append, List.map_map, List.map_map,
      List.map_map]
    refine List.rel_append ?_ ?_ <;>
      rw [List.forall₂_map_left_iff, List.forall₂_map_right_iff, List.forall₂_same]
    · exact fun f _ => ⟨rfl, BEq.symm (Bindings.values_substitute_of_agree hagree f)⟩
    · intro d _
      refine ⟨?_, ?_⟩
      · simp [Fact.tuple]
      · simpa [Fact.tuple] using BEq.symm (Bindings.values_substitute_of_agree hagree d.fact)

end Horn.Search
