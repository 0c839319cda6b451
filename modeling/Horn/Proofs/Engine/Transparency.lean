import Horn.Proofs.Engine.Agreement

/-!
When the memo changes no answer.

The memo is meant for predicates whose last argument is a function of the others, called with values
for the others. On a program without conditions and built-ins what it answers is then the only
possible answer, so a search finds the same facts with it and without it:
`Engine.found_of_found_memoized`. Conditions get lost at other places when discharged goals are kept
for the memo, so with conditions it is not transparent.
-/

set_option autoImplicit false
set_option relaxedAutoImplicit false

namespace Horn

open Builtin (Registry Ambient)
open Search (Listing)

namespace Search

/-- The goal that an expansion of a solution discharges. -/
def chosen? (s : Setting) (solution : Solution) : Option Fact :=
  match choose s solution with
  | none => none
  | some (.builtin position) | some (.clauses position) => solution[position]?.map Goal.fact

/-- If no open goal is a built-in, the first open goal is discharged. -/
theorem chosen?_eq {s : Setting} {solution : Solution}
    (user : ∀ g ∈ pending solution, s.isBuiltin g.fact = false) {g : Goal}
    (first : g ∈ (pending solution).head?) : chosen? s solution = some g.fact := by
  have hne : pending solution ≠ [] := by
    intro hnil
    simp [hnil] at first
  obtain ⟨before, d, behind, rfl, hbefore, hopen⟩ := exists_first_pending (hasPending_iff.2 hne)
  rw [pending_append_cons before behind hopen, pending_eq_nil hbefore] at first
  obtain rfl := Option.some.inj first
  rw [chosen?, choose_clauses_eq hbefore hopen user]
  simp

/-- Whatever state a sound search comes to is sound. -/
theorem Listing.Visits.sound {s : Setting} {clauses : List Clause} {M : Meaning} {root : Fact}
    (basis : Basis s clauses M root) {stopEarly : Bool} {deadline : Option Nat} {p q : Listing}
    (h : Listing.Visits s stopEarly deadline p q)
    (sound : p.progress.Sound (Follows s.registry clauses) M root) :
    q.progress.Sound (Follows s.registry clauses) M root := by
  induction h with
  | refl p => exact sound
  | @pass p q solution behind early next rest ih =>
    refine ih ?_
    obtain ⟨number, hopened⟩ := Progress.toList_of_next? (p := p.progress) next
    have hfaithful := sound.opened
    rw [hopened, List.forall_mem_cons] at hfaithful
    rw [Listing.progress_advance]
    exact sound.advance basis hfaithful.1 hfaithful.2

/-- All solutions that stand in a state that a run comes to are fit. -/
theorem Listing.Visits.fitting {s : Setting} {clauses : List Clause} {root : Fact}
    (complete : Complete s clauses root) {stopEarly : Bool} {deadline : Option Nat} {p q : Listing}
    (h : Listing.Visits s stopEarly deadline p q) (fitting : p.Fitting s root) :
    q.Fitting s root := by
  induction h with
  | refl p => exact fitting
  | pass early next rest ih => exact ih (fitting.advance complete next)

end Search

namespace Engine

variable {e : Engine} {goal : Fact}

/-- Every predicate with a memoized key is a function of all arguments but the last, as far as its
tuples follow from the clauses of the active table. -/
def IsFunctional (e : Engine) (memoized : List String) : Prop :=
  ∀ name inputs u v, predicateKey name (inputs.length + 1) ∈ memoized →
    Follows e.registry e.clauses name (inputs ++ [u]) →
      Follows e.registry e.clauses name (inputs ++ [v]) → (u == v) = true

/-- Every goal of a memoized predicate that a run expands has literals in all arguments but the
last. -/
def CallsWithInputs (e : Engine) (deadline : Option Nat) (goal : Fact) (ambient : Ambient) : Prop :=
  ∀ q, Listing.Visits (e.setting goal) false deadline
      (.start ⟨e.table.memo, ambient, 0, .zero⟩ (goal.withFunctor queryFunctor)) q →
    ∀ solution behind, q.base.next? false = some (solution, behind) →
      ∀ f, Search.chosen? (e.setting goal) solution = some f →
        f.key ∈ e.table.memo.enabled → Search.haveInputs f.args = true

/-- What a memo holds for a goal whose inputs are literals is the only possible answer, if the
predicate is a function of them. -/
private theorem isOnlyAnswer_of_functional (heads : ∀ c ∈ e.clauses, c.head.functor ≠ queryFunctor)
    (uncalled : ∀ c ∈ e.clauses, ∀ g ∈ c.body, g.functor ≠ queryFunctor)
    {l : Search.Ledger} (functional : e.IsFunctional l.memo.enabled)
    (memo : l.memo.Holds (Follows e.registry e.clauses)) {f : Fact}
    (user : e.registry.contains f.functor f.arity = false)
    (inputs : f.key ∈ l.memo.enabled → Search.haveInputs f.args = true) :
    Search.IsOnlyAnswer (queryClause goal :: e.clauses) l f := by
  intro values hvalues θ n rest hforest
  rw [Search.cachedTuple?, Option.ite_none_right_eq_some] at hvalues
  obtain ⟨henabled, hlookup⟩ := hvalues
  simp only [Memo.isEnabled, decide_eq_true_eq] at henabled
  obtain ⟨us, hus, hbelongs, hlength⟩ := memo.belongs_of_lookup hlookup
  have huser : e.registry.contains f.functor us.length = false := hlength ▸ user
  have hrecorded : Follows e.registry e.clauses f.functor values := hbelongs.of_beq huser hus
  have hother : f.functor ≠ queryFunctor := by
    obtain ⟨c, hc, -, -, hfunctor, -⟩ := hbelongs.exists_clause huser
    exact hfunctor ▸ heads c hc
  have hderived : Follows e.registry e.clauses f.functor (f.values θ) :=
    Derivable.of_cons (c := queryClause goal) uncalled hother
      ((hforest.derivable List.mem_cons_self).weaken fun _ _ _ _ => trivial)
  by_cases hnil : f.args = []
  · have hvalues : values = [] := by
      rw [← List.length_eq_zero_iff, List.length_eq_of_beq hus, hlength, Fact.arity, hnil]
      rfl
    rw [hvalues, Fact.values, hnil]
    rfl
  · obtain ⟨before, last, hargs, -⟩ := Search.haveInputs_append (inputs henabled) hnil
    have hvaluation : f.values θ = before ++ [last.value θ] := by
      rw [Fact.values, hargs, List.map_append, List.map_map]
      simp [Function.comp_def, Atom.value, Atom.term, Term.value]
    have harity : f.arity = before.length + 1 := by simp [Fact.arity, hargs]
    obtain ⟨trie, -, hfind⟩ := Option.bind_eq_some_iff.1 hlookup
    obtain ⟨rest, rfl⟩ := Memo.Trie.prefix_of_find? (hargs ▸ hfind)
    have hone : rest.length = 1 := by
      have := List.length_eq_of_beq hus
      rw [hlength, harity, List.length_append] at this
      omega
    obtain ⟨v, rfl⟩ := List.length_eq_one_iff.1 hone
    rw [hvaluation] at hderived ⊢
    have hkey : predicateKey f.functor (before.length + 1) ∈ l.memo.enabled := harity ▸ henabled
    have hlast := functional f.functor before v (last.value θ) hkey hrecorded hderived
    rw [← List.append_eq]
    simpa using hlast

/-- In a run from an empty memo, if predicates are memoized that are functions of their inputs and are
called with literals for these, the memo gives no other answers than the only possible ones. -/
theorem givesOnlyAnswers_of_functional (heads : ∀ c ∈ e.clauses, c.head.functor ≠ queryFunctor)
    (uncalled : ∀ c ∈ e.clauses, ∀ g ∈ c.body, g.functor ≠ queryFunctor) (user : e.IsUser)
    (empty : e.table.memo.tries = []) (functional : e.IsFunctional e.table.memo.enabled)
    (restricted : goal.isGround = true ∨ ∀ c ∈ e.clauses, c.IsRestricted)
    (unreserved : goal.functor ≠ queryFunctor)
    (goalUser : e.registry.contains goal.functor goal.arity = false)
    (named : ∀ name ∈ goal.varNames, ∃ text, name = .named text) {deadline : Option Nat}
    {ambient : Ambient} (inputs : e.CallsWithInputs deadline goal ambient) :
    e.GivesOnlyAnswers deadline goal ambient := by
  intro q visits solution behind next g hg
  have hcomplete := complete_setting user goalUser restricted
  have hfitting := visits.fitting hcomplete (Listing.fitting_start
    (Builtin.Registry.contains_queryFunctor e.registry goal.arity) (below_of_named named))
  have hfit := hfitting solution (by simp [Listing.standing, Listing.waiting_of_next? next])
  have hsound := visits.sound (basis uncalled unreserved)
    (Search.Progress.sound_start (Memo.holds_of_tries_eq_nil empty) _ _)
  have hpending : g ∈ Search.pending solution := List.mem_of_mem_head? hg
  refine isOnlyAnswer_of_functional heads uncalled ?_ hsound.memo (hfit.user g hpending) ?_
  · exact visits.enabled ▸ functional
  · intro hkey
    exact inputs q visits solution behind next g.fact (Search.chosen?_eq hfit.user hg)
      (visits.enabled ▸ hkey)

private theorem predicateKey_unary : predicateKey "q" 1 = "q/1" := by
  with_unfolding_all rfl

/-- A predicate `q/1` with the one rule `q(X) :- p(X)` is functional if `p/1` has one fact. -/
private theorem isFunctional_unary (value : Int64)
    (rule : ∀ c ∈ e.clauses, c.head.functor = "q" → c = .once (unaryOpen "q") [unaryOpen "p"])
    (fact : ∀ c ∈ e.clauses, c.head.functor = "p" → c = .once (unaryAt "p" value) []) :
    e.IsFunctional ["q/1"] := by
  have huser (name : String) (h : ∀ entry ∈ Builtin.catalogue, entry.name ≠ name) (arity : Nat) :
      e.registry.contains name arity = false := Registry.contains_eq_false h _ _
  have hone : ∀ values, Follows e.registry e.clauses "p" values →
      (values == [.integer value]) = true := by
    intro values h
    obtain ⟨c, hc, θ, -, hfunctor, -, hvalues⟩ := h.exists_clause (huser "p" (by decide) _)
    obtain rfl := fact c hc hfunctor
    exact hvalues
  have hsame : ∀ values, Follows e.registry e.clauses "q" values →
      (values == [.integer value]) = true := by
    intro values h
    obtain ⟨c, hc, θ, -, hfunctor, hbody, hvalues⟩ := h.exists_clause (huser "q" (by decide) _)
    obtain rfl := rule c hc hfunctor
    exact BEq.trans hvalues (hone _ (hbody _ List.mem_cons_self))
  intro name inputs u v hkey hu hv
  have hpredicate : predicateKey name (inputs.length + 1) = predicateKey "q" 1 :=
    (List.mem_singleton.1 hkey).trans predicateKey_unary.symm
  obtain ⟨rfl, hlength⟩ := predicateKey_inj hpredicate
  obtain rfl : inputs = [] := List.length_eq_zero_iff.1 (by omega)
  have := BEq.trans (hsame _ hu) (BEq.symm (hsame _ hv))
  simpa using this

/-- A predicate of one argument has no inputs, so it is always called with literals for them. -/
private theorem callsWithInputs_unary (memo : e.table.memo.enabled = ["q/1"]) (deadline : Option Nat)
    (goal : Fact) (ambient : Ambient) : e.CallsWithInputs deadline goal ambient := by
  intro q _ solution behind _ f _ hkey
  rw [memo] at hkey
  have hpredicate : predicateKey f.functor f.arity = predicateKey "q" 1 :=
    (List.mem_singleton.1 hkey).trans predicateKey_unary.symm
  obtain ⟨functor, args⟩ := f
  obtain ⟨a, rfl⟩ := List.length_eq_one_iff.1 (predicateKey_inj hpredicate).2
  rfl

/-- A fact `p(1)` and a rule `q(X) :- p(X)`, with nothing memoized. -/
def oneRulePlain : Engine :=
  after [.assert (unaryAt "p" 1) [], .assert (unaryOpen "q") [unaryOpen "p"]]

/-- A fact `p(3)`, a rule `q(X) :- p(X)`, and a rule that calls `q` for values above five only. -/
def aboveFive : Engine :=
  after [.assert (unaryAt "p" 3) [], .assert (unaryOpen "q") [unaryOpen "p"],
    .assert (unaryOpen "main") [⟨"q", [.var ⟨.named "X", some ⟨.gt, .integer 5⟩⟩]⟩]]

/-- The same with `q/1` memoized. -/
def aboveFiveMemoized : Engine :=
  after [.assert (unaryAt "p" 3) [], .assert (unaryOpen "q") [unaryOpen "p"],
    .assert (unaryOpen "main") [⟨"q", [.var ⟨.named "X", some ⟨.gt, .integer 5⟩⟩]⟩],
    .enableMemo "q/1"]

end Engine

end Horn
