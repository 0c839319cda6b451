import Horn.Proofs.Search.Passes
import Horn.Proofs.Search.Pruning
import Horn.Proofs.Search.Trial

/-!
Two runs side by side.

A relation between solutions is a simulation of one setting in another if solutions that are related
look alike, answer alike, and are expanded into solutions that are related, as long as the ledgers differ
in the ambient only. Then runs from states that are related go through states that are related, end in the
same pass and list the same answers: `Listing.Alike.run`. With deterministic built-ins equality is a
simulation of every setting in itself.
-/

set_option autoImplicit false
set_option relaxedAutoImplicit false

namespace Horn.Search

/-- A relation between solutions, given the next fresh number, that expansions in two settings keep. -/
structure Simulation (s s' : Setting) (R : Nat → Solution → Solution → Prop) : Prop where
  mono : ∀ {next later : Nat} {a b : Solution}, R next a b → next ≤ later → R later a b
  like : ∀ {next : Nat} {a b : Solution}, R next a b → looksLike a b = true
  tuple : ∀ {next : Nat} {a b : Solution}, R next a b → Progress.tuple? a = Progress.tuple? b
  expand : ∀ {l l' : Ledger} {a b : Solution}, l.Agrees l' → R l.nextVar a b →
    (Search.expand s l a).2.Agrees (Search.expand s' l' b).2 ∧
      List.Forall₂ (R (Search.expand s l a).2.nextVar) (Search.expand s l a).1
        (Search.expand s' l' b).1

/-- With deterministic built-ins a search does the same in every ambient. -/
theorem simulation_calm {s : Setting} (calls : CallsCalm s) :
    Simulation s s fun _ a b => a = b ∧ Calm s a where
  mono h _ := h
  like h := h.1 ▸ looksLike_self _
  tuple h := congrArg Progress.tuple? h.1
  expand := by
    rintro l l' a _ hagrees ⟨rfl, hcalm⟩
    obtain ⟨hchildren, hledger⟩ := expand_agrees hcalm hagrees
    refine ⟨hledger, hchildren ▸ List.forall₂_same.2 fun child hchild => ⟨rfl, ?_⟩⟩
    exact predicates_of_mem_expand (P := IsDeterministic s.registry) hcalm calls hchild

namespace Listing

variable {s s' : Setting} {R : Nat → Solution → Solution → Prop} {p q : Listing}

/-- States of two searches: the same numbers, and solutions that are related. -/
structure Alike (R : Nat → Solution → Solution → Prop) (p q : Listing) : Prop where
  ledger : p.base.ledger.Agrees q.base.ledger
  opened : List.Forall₂ (fun x y => x.1 = y.1 ∧ R p.base.ledger.nextVar x.2 y.2)
    p.base.opened.toList q.base.opened.toList
  finished : p.base.finished.map Progress.tuple? = q.base.finished.map Progress.tuple?
  firstFinished : p.base.firstFinished = q.base.firstFinished
  created : p.base.created = q.base.created
  made : List.Forall₂ (fun a b => looksLike a b = true) p.made q.made

theorem alike_start (sim : Simulation s s' R) {l l' : Ledger} (ledger : l.Agrees l') {root root' : Fact}
    (related : R l.nextVar [Goal.pending 0 root] [Goal.pending 0 root']) :
    Alike R (start l root) (start l' root') where
  ledger := ledger
  opened := .cons ⟨rfl, related⟩ .nil
  finished := rfl
  firstFinished := rfl
  created := rfl
  made := .cons (sim.like related) .nil

namespace Alike

theorem answers_eq (h : Alike R p q) (stopEarly : Bool) : p.answers stopEarly = q.answers stopEarly := by
  have htuples (finished : List Solution) : finished.reverse.filterMap Progress.tuple? =
      (finished.map Progress.tuple?).reverse.filterMap id := by
    rw [← List.map_reverse, List.filterMap_map]
    rfl
  rw [answers, answers, htuples, htuples, h.finished]

private theorem any_looksLike {as bs : List Solution} {c d : Solution}
    (h : List.Forall₂ (fun a b => looksLike a b = true) as bs) (like : looksLike c d = true) :
    as.any (looksLike · c) = bs.any (looksLike · d) := by
  induction h with
  | nil => rfl
  | @cons a b _ _ first _ ih =>
    have hfirst : looksLike a c = looksLike b d := by
      rw [Bool.eq_iff_iff]
      constructor
      · exact fun hac => looksLike_trans (looksLike_symm first) (looksLike_trans hac like)
      · exact fun hbd => looksLike_trans first (looksLike_trans hbd (looksLike_symm like))
    rw [List.any_cons, List.any_cons, hfirst, ih]

theorem takeIn (sim : Simulation s s' R) (h : Alike R p q) {c d : Solution}
    (related : R p.base.ledger.nextVar c d) : Alike R (p.takeIn c) (q.takeIn d) := by
  have hlike := sim.like related
  have hmade : List.Forall₂ (fun a b => looksLike a b = true) (c :: p.made) (d :: q.made) :=
    .cons hlike h.made
  have hknown : p.isKnown c = q.isKnown d := any_looksLike h.made hlike
  rw [Listing.takeIn, Listing.takeIn, hknown]
  cases q.isKnown d with
  | true =>
    refine { h with ledger := ?_, made := hmade }
    exact h.ledger.count fun c => { c with prunedDuplicates := c.prunedDuplicates + 1 }
  | false =>
    simp only [Bool.false_eq_true, if_false, Progress.file, hasPending_eq_of_looksLike hlike]
    cases hasPending d with
    | true =>
      refine { h with opened := ?_, created := congrArg (· + 1) h.created, made := hmade }
      simp only [if_true, Queue.toList_push]
      exact List.rel_append h.opened (.cons ⟨h.created, related⟩ .nil)
    | false =>
      refine { h with
        finished := ?_
        firstFinished := ?_
        created := congrArg (· + 1) h.created
        made := hmade }
      · exact congrArg₂ List.cons (sim.tuple related) h.finished
      · simp only [Bool.false_eq_true, if_false, h.firstFinished, h.created]

private theorem nextVar_takeIn (p : Listing) (c : Solution) :
    (p.takeIn c).base.ledger.nextVar = p.base.ledger.nextVar := by
  obtain ⟨pruned, hledger⟩ := exists_ledger_foldl [c] p
  exact (congrArg Ledger.nextVar hledger).trans rfl

theorem foldl_takeIn (sim : Simulation s s' R) (h : Alike R p q) {cs ds : List Solution}
    (related : List.Forall₂ (R p.base.ledger.nextVar) cs ds) :
    Alike R (cs.foldl Listing.takeIn p) (ds.foldl Listing.takeIn q) := by
  generalize hnext : p.base.ledger.nextVar = next at related
  induction related generalizing p q with
  | nil => exact h
  | cons first _ ih =>
    exact ih (h.takeIn sim (hnext ▸ first)) ((nextVar_takeIn p _).trans hnext)

/-- Both searches are at their ends, or both go on with solutions that are related. -/
theorem next? (h : Alike R p q) (stopEarly : Bool) :
    Option.Rel (fun x y => R p.base.ledger.nextVar x.1 y.1 ∧
        List.Forall₂ (fun x y => x.1 = y.1 ∧ R p.base.ledger.nextVar x.2 y.2) x.2.toList y.2.toList)
      (p.base.next? stopEarly) (q.base.next? stopEarly) := by
  have hopened := h.opened
  rw [Progress.next?, Progress.next?, ← h.firstFinished]
  cases hp : p.base.opened.pop? with
  | none =>
    rw [Queue.pop?_eq_none_iff.1 hp] at hopened
    rw [Queue.pop?_eq_none_iff.2 (List.forall₂_nil_left_iff.1 hopened)]
    exact .none
  | some entry =>
    obtain ⟨⟨number, a⟩, behind⟩ := entry
    rw [Queue.toList_of_pop? hp] at hopened
    cases hq : q.base.opened.pop? with
    | none =>
      rw [Queue.pop?_eq_none_iff.1 hq] at hopened
      cases hopened
    | some entry' =>
      obtain ⟨⟨number', b⟩, behind'⟩ := entry'
      rw [Queue.toList_of_pop? hq, List.forall₂_cons] at hopened
      obtain ⟨⟨hnumber, hrelated⟩, hbehind⟩ := hopened
      simp only at hnumber
      simp only [hnumber]
      split
      · exact .none
      · exact .some ⟨hrelated, hbehind⟩

theorem advance (sim : Simulation s s' R) (h : Alike R p q) {a b : Solution}
    {behind behind' : Queue (Nat × Solution)} (related : R p.base.ledger.nextVar a b)
    (rest : List.Forall₂ (fun x y => x.1 = y.1 ∧ R p.base.ledger.nextVar x.2 y.2)
      behind.toList behind'.toList) :
    Alike R (p.advance s a behind) (q.advance s' b behind') := by
  have hcounted : p.counted.Agrees q.counted :=
    h.ledger.count fun c => { c with iterations := c.iterations + 1 }
  obtain ⟨hledger, hchildren⟩ := sim.expand hcounted related
  have hle : p.base.ledger.nextVar ≤ (Search.expand s p.counted a).2.nextVar :=
    nextVar_le_expand s p.counted a
  have hpopped : Alike R (p.popped s a behind) (q.popped s' b behind') :=
    { h with
      ledger := hledger.spend _ _
      opened := rest.imp fun _ _ hxy => ⟨hxy.1, sim.mono hxy.2 hle⟩ }
  rw [advance_eq, advance_eq]
  exact hpopped.foldl_takeIn sim hchildren

/-- Runs from states that are related end in the same pass, in states that are related. -/
theorem run (sim : Simulation s s' R) (h : Alike R p q) (stopEarly : Bool) (passes : Nat) :
    (Listing.run s stopEarly none passes p).1 = (Listing.run s' stopEarly none passes q).1 ∧
      Alike R (Listing.run s stopEarly none passes p).2
        (Listing.run s' stopEarly none passes q).2 := by
  induction passes generalizing p q with
  | zero => exact ⟨rfl, h⟩
  | succ passes ih =>
    have hnext := h.next? stopEarly
    cases hp : p.base.next? stopEarly with
    | none =>
      cases hq : q.base.next? stopEarly with
      | none =>
        rw [run_of_last hp (Nat.succ_ne_zero _), run_of_last hq (Nat.succ_ne_zero _)]
        exact ⟨rfl, h⟩
      | some _ =>
        rw [hp, hq] at hnext
        cases hnext
    | some entry =>
      cases hq : q.base.next? stopEarly with
      | none =>
        rw [hp, hq] at hnext
        cases hnext
      | some entry' =>
        rw [hp, hq] at hnext
        cases hnext with
        | some hrelated =>
          rw [run_succ_of_next rfl hp, run_succ_of_next rfl hq]
          exact ih (h.advance sim hrelated.1 hrelated.2)

end Alike

end Listing

end Horn.Search
