import Horn.Proofs.Engine.Soundness
import Horn.Proofs.Search.Pruning

/-!
What it means for a search to leave out solutions that look like earlier ones.

If the built-ins that a search calls come to one value whenever they are called, and to equal values
for equal inputs, leaving out solutions changes no answer, and the search comes to its end no later:
`Engine.exhausted_of_unpruned`. The texts of the two zeros differ although the zeros are equal, so a
search that turns zeros into texts may lose an answer: `Engine.exists_unpruned_differs`.
-/

set_option autoImplicit false
set_option relaxedAutoImplicit false

namespace Horn

open Builtin (Registry Ambient)
open Search (Listing)

namespace Engine

variable {e : Engine}

/-- Runs the search loop for a goal on the active table, but keeps all solutions, so many passes at
most. -/
def unprunedWithin (e : Engine) (passes : Nat) (goal : Fact) (ambient : Ambient) : Search.Outcome :=
  Search.runAll (e.setting goal) false none passes
    (.start ⟨e.table.memo, ambient, 0, .zero⟩ (goal.withFunctor queryFunctor))

/-- A statement about all built-ins, by name and number of inputs, that a search for a goal calls. -/
def ForCalled (e : Engine) (goal : Fact) (P : String → Nat → Prop) : Prop :=
  ∀ c ∈ queryClause goal :: e.clauses, ∀ f ∈ c.body,
    e.registry.contains f.functor f.arity = true → P f.functor (f.arity - 1)

/-- The built-ins that a search for a goal calls come to one value for the same inputs. -/
def CallsDeterministic (e : Engine) (goal : Fact) : Prop :=
  e.ForCalled goal fun functor inputs => ∀ us ambient ambient', us.length = inputs →
    (e.registry.evaluate functor us ambient).1 = (e.registry.evaluate functor us ambient').1

/-- The literals of a goal and of the clauses are of some kind, which the built-ins that a search for
the goal calls do not leave, and for literals of which they come to equal values for equal inputs. -/
structure CallsCongruent (e : Engine) (goal : Fact) (L : Literal → Prop) : Prop where
  query : ∀ u, Atom.lit u ∈ goal.args → L u
  program : ∀ c ∈ e.clauses, ∀ f ∈ c.facts, ∀ u, Atom.lit u ∈ f.args → L u
  closed : e.ForCalled goal fun functor inputs => ∀ us ambient value, us.length = inputs →
    (∀ u ∈ us, L u) → (e.registry.evaluate functor us ambient).1 = some value → L value
  congruent : e.ForCalled goal fun functor inputs => ∀ us vs ambient, us.length = inputs →
    (∀ u ∈ us, L u) → (∀ v ∈ vs, L v) → (us == vs) = true →
      ((e.registry.evaluate functor us ambient).1 == (e.registry.evaluate functor vs ambient).1) = true

/-- All built-ins but the random numbers and the clock are deterministic. -/
theorem callsDeterministic_of_ne {goal : Fact}
    (quiet : ∀ c ∈ queryClause goal :: e.clauses, ∀ f ∈ c.body,
      f.functor ≠ "rand" ∧ f.functor ≠ "time") : e.CallsDeterministic goal := by
  have hcatalogue : ∀ entry ∈ Builtin.catalogue, entry.name ≠ "rand" ∧ entry.name ≠ "time" →
      entry.action ≠ .clock ∧ entry.action ≠ .random := by
    simp [Builtin.catalogue]
  intro c hc f hf _ us ambient ambient' _
  rw [Registry.evaluate, Registry.evaluate]
  cases haction : e.registry.action? f.functor us.length with
  | none => rfl
  | some action =>
    obtain ⟨entry, hfilter, rfl⟩ := Option.map_eq_some_iff.1 haction
    have hentry := (Option.filter_eq_some_iff.1 hfilter).1
    have hname : entry.name = f.functor := by simpa using List.find?_some hentry
    have hquiet := hcatalogue entry (List.mem_of_find?_eq_some hentry) (hname ▸ quiet c hc f hf)
    simp only
    cases hrun : entry.action with
    | compute op => rfl
    | print => rfl
    | clock => exact absurd hrun hquiet.1
    | random => exact absurd hrun hquiet.2

/-- The clauses that a search runs on call steady built-ins. -/
theorem CallsCongruent.callsSteady {goal : Fact} {L : Literal → Prop}
    (congruent : e.CallsCongruent goal L) (deterministic : e.CallsDeterministic goal) :
    Search.CallsSteady (e.setting goal) L := by
  constructor
  · intro key c hc f hf
    rw [candidates_setting] at hc
    rcases List.mem_cons.1 (List.mem_filter.1 hc).1 with rfl | hc
    · have hargs : f.args = goal.args := by
        rcases List.mem_cons.1 hf with rfl | hf
        · rfl
        · rw [List.mem_singleton.1 hf]
      exact fun u hu => congruent.query u (hargs ▸ hu)
    · exact congruent.program c hc f hf
  · intro key c hc f hf hbuiltin
    rw [candidates_setting] at hc
    have hmem := (List.mem_filter.1 hc).1
    exact ⟨deterministic c hmem f hf hbuiltin, congruent.closed c hmem f hf hbuiltin,
      congruent.congruent c hmem f hf hbuiltin⟩

/-- A search starts with a steady solution. -/
theorem CallsCongruent.steady {goal : Fact} {L : Literal → Prop}
    (congruent : e.CallsCongruent goal L)
    (named : ∀ name ∈ goal.varNames, ∃ text, name = .named text) :
    Search.Steady (e.setting goal) L 0 [Search.Goal.pending 0 (goal.withFunctor queryFunctor)] := by
  constructor <;> intro g hg <;> obtain rfl := List.mem_singleton.1 hg
  · intro name hname
    obtain ⟨text, rfl⟩ := named name hname
    trivial
  · exact congruent.query
  · intro hbuiltin
    rw [Search.Setting.isBuiltin] at hbuiltin
    exact absurd ((Builtin.Registry.contains_queryFunctor _ _).symm.trans hbuiltin) (by simp)

/-- Without memo, leaving out solutions that look like earlier ones changes no answer and no order of
answers, and the search comes to its end in no more passes. -/
theorem exhausted_of_unpruned (goal : Fact) (unmemoized : e.table.memo.enabled = [])
    (named : ∀ name ∈ goal.varNames, ∃ text, name = .named text)
    (deterministic : e.CallsDeterministic goal) {L : Literal → Prop}
    (congruent : e.CallsCongruent goal L) {passes : Nat} {ambient ambient' : Ambient}
    {u : Search.Progress} (ended : e.unprunedWithin passes goal ambient = .exhausted u) :
    ∃ p, e.runWithin none passes goal false ambient' = .exhausted p ∧
      p.ledger.stats.iterations ≤ u.ledger.stats.iterations ∧
      p.answers false = u.answers false := by
  have hcalls : Search.CallsSteady (e.setting goal) L := congruent.callsSteady deterministic
  have hsteady : Search.Steady (e.setting goal) L 0
      [Search.Goal.pending 0 (goal.withFunctor queryFunctor)] := congruent.steady named
  let l : Search.Ledger := ⟨e.table.memo, ambient, 0, .zero⟩
  let l' : Search.Ledger := ⟨e.table.memo, ambient', 0, .zero⟩
  have hstart : Search.Lockstep (e.setting goal) L []
      (.start l (goal.withFunctor queryFunctor)) (.start l' (goal.withFunctor queryFunctor)) :=
    .start unmemoized unmemoized hsteady (Nat.le_refl 0)
  obtain ⟨p, hrun, hiterations, hanswers⟩ := hstart.run hcalls ended
  refine ⟨p.progress, ?_, hiterations, (Listing.answers_progress false p).trans hanswers⟩
  rw [runWithin_eq, listing, hrun]
  rfl

/-- A fact `p(1)`, two ways from `p` to `q`, and a rule that asks for the type of what is in `q`. -/
def twoWays : Engine :=
  after [.assert (unaryAt "p" 1) [], .assert (unaryOpen "r") [unaryOpen "p"],
    .assert (unaryOpen "q") [unaryOpen "r"], .assert (unaryOpen "q") [unaryOpen "p"],
    .assert (unaryOpen "s") [⟨"q", [.var ⟨.named "Y", none⟩]⟩,
      ⟨"type", [.var ⟨.named "Y", none⟩, .var ⟨.named "X", none⟩]⟩]]

private theorem called_twoWays {P : String → Nat → Prop} (h : P "type" 1) :
    twoWays.ForCalled (unaryOpen "s") P := by
  intro c hc f hf hcontains
  have hcalled : ∀ c ∈ queryClause (unaryOpen "s") :: twoWays.clauses, ∀ f ∈ c.body,
      twoWays.registry.contains f.functor f.arity = true → f.functor = "type" ∧ f.arity - 1 = 1 := by
    decide +kernel
  obtain ⟨hfunctor, harity⟩ := hcalled c hc f hf hcontains
  rw [hfunctor, harity]
  exact h

theorem congruent_twoWays : twoWays.CallsCongruent (unaryOpen "s") fun _ => True where
  query _ _ := trivial
  program _ _ _ _ _ _ := trivial
  closed := called_twoWays fun _ _ _ _ _ _ => trivial
  congruent := by
    refine called_twoWays fun us vs ambient hlength _ _ huv => ?_
    obtain ⟨u, rfl⟩ := List.length_eq_one_iff.1 hlength
    obtain ⟨v, rfl⟩ := List.length_eq_one_iff.1 ((List.length_eq_of_beq huv).symm.trans hlength)
    have htype (w : Literal) : (twoWays.registry.evaluate "type" [w] ambient).1 =
        some (.text w.typeName) := by
      with_unfolding_all rfl
    have hsame : u.typeName = v.typeName :=
      Literal.typeName_eq_of_same (show (u == v) = true by simpa using huv)
    rw [htype, htype, hsame]
    exact BEq.rfl

private theorem exists_ended {passes : Nat} {goal : Fact} {ambient : Ambient}
    (h : (found? goal false (e.unprunedWithin passes goal ambient)).isSome = true) :
    ∃ u, e.unprunedWithin passes goal ambient = .exhausted u := by
  cases hended : e.unprunedWithin passes goal ambient with
  | timedOut u => simp [hended, found?] at h
  | exhausted u => exact ⟨u, rfl⟩

theorem exhausted_of_unpruned_twoWays :
    ∃ u, twoWays.unprunedWithin 20 (unaryOpen "s") default = .exhausted u ∧
      ∃ p, twoWays.runWithin none 20 (unaryOpen "s") false default = .exhausted p ∧
        p.ledger.stats.iterations ≤ u.ledger.stats.iterations ∧
        p.answers false = u.answers false := by
  obtain ⟨u, hended⟩ : ∃ u, twoWays.unprunedWithin 20 (unaryOpen "s") default = .exhausted u :=
    exists_ended (by decide +kernel)
  refine ⟨u, hended, exhausted_of_unpruned (unaryOpen "s") (by with_unfolding_all rfl) ?_ ?_
    congruent_twoWays hended⟩
  · exact fun name hname => ⟨"X", List.mem_singleton.1 hname⟩
  · exact callsDeterministic_of_ne (by decide +kernel)

/-- A number for each zero, and a rule that makes a text of it. -/
def zeros : Engine :=
  after [.assert ⟨"q", [.lit (.integer 1), .lit (.float (Float.ofBits 0))]⟩ [],
    .assert ⟨"q", [.lit (.integer 2), .lit (.float (Float.ofBits 0x8000000000000000))]⟩ [],
    .assert (unaryOpen "r") [⟨"q", [.var ⟨.named "A", none⟩, .var ⟨.named "Y", none⟩]⟩,
      ⟨"as_string", [.var ⟨.named "Y", none⟩, .var ⟨.named "X", none⟩]⟩]]

/-- Solutions that differ in the sign of a zero look alike, so a search may leave out one that leads to
an answer of its own. -/
theorem exists_unpruned_differs :
    ¬ ∀ (e : Engine) (goal : Fact), e.Reachable → e.table.memo.enabled = [] →
      (∀ name ∈ goal.varNames, ∃ text, name = .named text) → e.CallsDeterministic goal →
      ∀ (passes : Nat) (ambient : Ambient) (u : Search.Progress),
        e.unprunedWithin passes goal ambient = .exhausted u →
        ∃ p, e.runWithin none passes goal false ambient = .exhausted p ∧
          p.ledger.stats.iterations ≤ u.ledger.stats.iterations ∧
          p.answers false = u.answers false := by
  intro h
  obtain ⟨u, hended⟩ : ∃ u, zeros.unprunedWithin 9 (unaryOpen "r") default = .exhausted u :=
    exists_ended (by decide +kernel)
  obtain ⟨p, hrun, -, hanswers⟩ := h zeros (unaryOpen "r") (reachableBy_after fun _ _ _ => trivial)
    (by with_unfolding_all rfl) (fun name hname => ⟨"X", List.mem_singleton.1 hname⟩)
    (callsDeterministic_of_ne (by decide +kernel)) 9 default u hended
  have hall : (u.answers false).length = 2 := by
    have hfinished : ((zeros.unprunedWithin 9 (unaryOpen "r") default).progress.finished.reverse.filterMap
        Search.Progress.tuple?).eraseDups.length = 2 := by decide +kernel
    rw [hended] at hfinished
    rwa [Search.Progress.answers, distinct_eq_eraseDups]
  have hpruned : (p.answers false).length = 1 := by
    have hlisted : ((zeros.listing none 9 (unaryOpen "r") false default).2.answers false).length = 1 := by
      decide +kernel
    have hprogress := congrArg Search.Outcome.progress hrun
    rw [runWithin_eq, Listing.progress_outcome] at hprogress
    rwa [← Listing.answers_progress, hprogress] at hlisted
  rw [hanswers, hall] at hpruned
  simp at hpruned

end Engine

end Horn
