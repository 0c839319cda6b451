import Horn.Proofs.Engine.EarlyExit
import Horn.Proofs.Search.Ground

/-!
Searches for ground facts that are asserted.

Whatever other clauses a predicate has, and whatever is memoized, a search for one answer finds such a
fact, in no more iterations than the predicate has clauses and one. A search for all answers need not
end, but if it does it has found the fact and nothing else.
-/

set_option autoImplicit false
set_option relaxedAutoImplicit false

namespace Horn.Engine

open Builtin (Ambient)
open Search (Listing)

variable {e : Engine} {goal : Fact}

/-- No clause of a reachable engine has a built-in head. -/
theorem heads_user (reachable : e.Reachable) :
    ∀ c ∈ e.clauses, e.registry.contains c.head.functor c.head.arity = false :=
  fun c hc => (reachable.head_unprotected c hc).2

/-- How many clauses of the active table have the predicate of a fact. -/
def siblings (e : Engine) (f : Fact) : Nat :=
  e.clauses.countP fun c => c.key = f.key

private theorem asks_of_mem (reachable : e.Reachable) {functor : String} {us : List Literal} {c : Clause}
    (mem : c ∈ e.clauses) (predicate : c.head.functor = functor ∧ c.head.arity = us.length) :
    Search.Asks (e.setting (.ofLiterals functor us)) queryFunctor functor us := by
  obtain ⟨rfl, harity⟩ := predicate
  refine ⟨Builtin.Registry.contains_queryFunctor _ _, ?_, ?_, ?_⟩
  · have huser := heads_user reachable c mem
    rw [harity, ← Fact.arity_ofLiterals c.head.functor us] at huser
    exact huser
  · rw [candidates_setting, List.filter_cons_of_pos (by simp; rfl), List.filter_eq_nil_iff.2]
    · rfl
    · intro d hd hkey
      exact reachable.head_ne d hd (predicateKey_inj (of_decide_eq_true hkey)).1
  · rw [Search.Setting.isDefined, Bool.or_eq_true]
    right
    refine (Program.defines_pushFront _ _ _).2 ⟨c, List.mem_cons_of_mem _ mem, ?_⟩
    rw [Clause.key, Fact.key, Fact.key, harity, Fact.arity_ofLiterals]
    rfl

private theorem length_candidates {f : Fact} (unreserved : f.functor ≠ queryFunctor) :
    ((e.setting f).program.candidates f.key).length = e.siblings f := by
  have hquery : (queryClause f).key ≠ f.key := fun hkey => unreserved (predicateKey_inj hkey).1.symm
  rw [candidates_setting, List.filter_cons_of_neg (by simpa using hquery), siblings,
    List.countP_eq_length_filter]

variable {functor : String} {us vs : List Literal} {c : Clause}

/-- A search for an asserted fact has finished a solution after two passes at most. -/
private theorem exists_listing (reachable : e.Reachable) (mem : c ∈ e.clauses)
    (head : c.head = .ofLiterals functor vs) (body : c.body = []) (equal : (us == vs) = true)
    (ambient : Ambient) : ∃ passes p k,
      (∀ stopEarly, e.listing none passes (.ofLiterals functor us) stopEarly ambient = (false, p)) ∧
        Listing.HasFirst k p ∧ p.base.ledger.stats.iterations = passes ∧
        passes + p.ahead k ≤ e.siblings (.ofLiterals functor us) + 1 := by
  have hfunctor : c.head.functor = functor := congrArg Fact.functor head
  have harity : c.head.arity = us.length := by
    rw [head, Fact.arity_ofLiterals]
    exact (List.length_eq_of_beq equal).symm
  have hcandidate : c ∈ (e.setting (.ofLiterals functor us)).program.candidates
      (Fact.ofLiterals functor us).key := by
    rw [candidates_setting]
    refine List.mem_filter.2 ⟨List.mem_cons_of_mem _ mem, decide_eq_true ?_⟩
    rw [Clause.key, Fact.key, Fact.key, hfunctor, harity, Fact.arity_ofLiterals]
    rfl
  obtain ⟨passes, p, k, hrun, hfirst, hiterations, hahead⟩ := Listing.exists_finished_soon
    (asks_of_mem reachable mem ⟨hfunctor, harity⟩) ⟨e.table.memo, ambient, 0, .zero⟩ hcandidate head
    body equal
  refine ⟨passes, p, k, hrun, hfirst, by simpa [Search.Stats.zero] using hiterations, ?_⟩
  rwa [length_candidates (f := .ofLiterals functor us) (hfunctor ▸ reachable.head_ne c mem)] at hahead

/-- Once a solution is finished, a ground fact is the only answer to a search for it. -/
private theorem answers_listing (functor : String) (us : List Literal) {passes : Nat}
    {stopEarly : Bool} {ambient : Ambient}
    (finished : (e.listing none passes (.ofLiterals functor us) stopEarly
      ambient).2.base.firstFinished ≠ none) :
    ((e.listing none passes (.ofLiterals functor us) stopEarly ambient).2.answers stopEarly).map
      (Fact.ofLiterals functor) = [.ofLiterals functor us] := by
  have hrooted : Listing.Rooted (.ofLiterals queryFunctor us)
      (e.listing none passes (.ofLiterals functor us) stopEarly ambient).2 :=
    (Listing.rooted_start _ _).run (Fact.isGround_ofLiterals queryFunctor us) _ _ _
  have hanswered : Listing.Answered
      (e.listing none passes (.ofLiterals functor us) stopEarly ambient).2 :=
    (Listing.answered_start _ _).run _ _ _
  rw [Listing.answers_of_rooted hrooted hanswered finished, List.map_singleton]

/-- A ground fact that is asserted is found, whatever else the table holds. -/
theorem found_asserted (goal : Fact) (reachable : e.Reachable) {c : Clause} (mem : c ∈ e.clauses)
    (body : c.body = []) (ground : c.head.isGround = true) (equal : (goal == c.head) = true) :
    (∀ (passes : Nat) (ambient : Ambient), e.siblings goal + 2 ≤ passes →
      (e.searchWithin none passes goal true ambient).2.found = some [goal] ∧
        (e.searchWithin none passes goal true ambient).1.lastStats.iterations ≤
          e.siblings goal + 1) ∧
      ∀ (passes : Nat) (ambient : Ambient) (facts : List Fact),
        (e.searchWithin none passes goal false ambient).2.found = some facts → facts = [goal] := by
  obtain ⟨us, vs, rfl, hhead, hequal⟩ := Fact.exists_of_beq_isGround equal ground
  have hunreserved : (Fact.ofLiterals c.head.functor us).functor ≠ queryFunctor :=
    reachable.head_ne c mem
  constructor
  · intro passes ambient hle
    obtain ⟨first, p, k, hfirst, hk, hiterations, hahead⟩ :=
      exists_listing reachable mem hhead body hequal ambient
    obtain ⟨rest, rfl⟩ : ∃ rest, passes = first + rest := ⟨passes - first, by omega⟩
    have hrest : p.ahead k < rest := by omega
    obtain ⟨q, hended, hmore⟩ :=
      hk.exists_ended (s := e.setting (.ofLiterals c.head.functor us)) hrest
    have hkept := hk.run (e.setting (.ofLiterals c.head.functor us)) true rest
    have hlisting : e.listing none (first + rest) (.ofLiterals c.head.functor us) true ambient =
        (true, q) := by
      have hfirst := hfirst true
      rw [listing] at hfirst ⊢
      rw [Listing.run_add, hfirst, if_neg (by simp), hended]
    have hfinished : (e.listing none (first + rest) (.ofLiterals c.head.functor us) true
        ambient).2.base.firstFinished ≠ none := by
      rw [hended] at hkept
      rw [hlisting, show q.base.firstFinished = some k from hkept.first]
      exact Option.some_ne_none k
    have hanswers := answers_listing c.head.functor us hfinished
    rw [hlisting] at hanswers
    rw [found_eq hunreserved, listed?_eq_some_iff, iterations_searchWithin hunreserved, hlisting]
    exact ⟨⟨rfl, hanswers⟩, by simp only; omega⟩
  · intro passes ambient facts found
    rw [found_eq hunreserved, listed?_eq_some_iff] at found
    obtain ⟨hended, rfl⟩ := found
    refine answers_listing c.head.functor us ?_
    obtain ⟨first, p, k, hfirst, hk, -, -⟩ :=
      exists_listing reachable mem hhead body hequal ambient
    -- A search that is at its end has made the passes after which a solution is finished.
    have hfirst := hfirst false
    rw [listing] at hfirst hended ⊢
    have hle : first ≤ passes := by
      refine Nat.le_of_lt (Nat.lt_of_not_le fun hle => ?_)
      have hgoing := Listing.going_of_le (congrArg Prod.fst hfirst) hle
      rw [hended] at hgoing
      cases hgoing
    obtain ⟨rest, rfl⟩ := Nat.exists_eq_add_of_le hle
    have hkept := hk.run (e.setting (.ofLiterals c.head.functor us)) false rest
    rw [Listing.run_add, hfirst, if_neg (by simp), hkept.first]
    exact Option.some_ne_none k

/-- A rule by which `p` calls itself twice, so that solutions grow without end, and after it the fact
`p(1)`; `p/1` is memoized. -/
def endless : Engine :=
  after [.assert (unaryOpen "p") [⟨"p", [.var ⟨.named "Y", none⟩]⟩, unaryOpen "p"],
    .assert (unaryAt "p" 1) [], .enableMemo "p/1"]

theorem found_asserted_endless :
    ((endless.searchWithin none 4 (unaryAt "p" 1) true default).2.found = some [unaryAt "p" 1] ∧
      (endless.searchWithin none 4 (unaryAt "p" 1) true default).1.lastStats.iterations ≤ 3) ∧
      (oneRule.searchWithin none 9 (unaryAt "p" 1) false default).2.found = some [unaryAt "p" 1] ∧
        ∀ facts, (oneRule.searchWithin none 9 (unaryAt "p" 1) false default).2.found = some facts →
          facts = [unaryAt "p" 1] := by
  have hendless : Clause.once (unaryAt "p" 1) [] ∈ endless.clauses := by
    rw [show endless.clauses = [.once (unaryOpen "p") [⟨"p", [.var ⟨.named "Y", none⟩]⟩,
      unaryOpen "p"], .once (unaryAt "p" 1) []] by with_unfolding_all rfl]
    simp
  have honeRule : Clause.once (unaryAt "p" 1) [] ∈ oneRule.clauses := by
    rw [show oneRule.clauses = [.once (unaryAt "p" 1) [], .once (unaryOpen "q") [unaryOpen "p"]] by
      with_unfolding_all rfl]
    simp
  have hfound : (oneRule.searchWithin none 9 (unaryAt "p" 1) false default).2.found =
      some [unaryAt "p" 1] := by
    rw [found_eq (by decide)]
    with_unfolding_all rfl
  have hsiblings : endless.siblings (unaryAt "p" 1) = 2 := by decide +kernel
  have hearly := (found_asserted (e := endless) (unaryAt "p" 1)
    (reachableBy_after fun _ _ _ => trivial) hendless rfl (by decide) (by decide)).1 4 default
    (by omega)
  rw [hsiblings] at hearly
  exact ⟨hearly, hfound, (found_asserted (e := oneRule) (unaryAt "p" 1)
    (reachableBy_after fun _ _ _ => trivial) honeRule rfl (by decide) (by decide)).2 9 default⟩

end Horn.Engine
