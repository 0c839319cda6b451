import Horn.Proofs.Memo.Growth
import Horn.Proofs.Search.Passes

/-!
What a search does to the memo: it records tuples, and nothing else.

So whatever every record of a proven fact keeps, a run keeps, wherever it is cut off:
`Listing.memo_run`.
-/

set_option autoImplicit false
set_option relaxedAutoImplicit false

namespace Horn.Search

/-- What is recorded of a fact is recorded under the key of a predicate. -/
theorem Ledger.recordFact_cases (m : Memo) (f : Fact) : Ledger.recordFact m f = m ∨
    ∃ values, Ledger.recordFact m f = m.record (predicateKey f.functor values.length) values := by
  rw [Ledger.recordFact]
  cases hvalues : f.literals? with
  | none => exact .inl rfl
  | some values =>
    have harity : f.arity = values.length := by
      rw [Fact.literals?_eq_some_iff.1 hvalues, Fact.arity, Fact.ofLiterals, List.length_map]
    exact .inr ⟨values, by rw [Fact.key, harity]⟩

variable {P : Memo → Prop}

private theorem memo_foldl_recordFact (record : ∀ m f, P m → P (Ledger.recordFact m f))
    (facts : List Fact) {m : Memo} (h : P m) : P (facts.foldl Ledger.recordFact m) := by
  induction facts generalizing m with
  | nil => exact h
  | cons f rest ih => exact ih (record m f h)

theorem memo_enterAll (record : ∀ m f, P m → P (Ledger.recordFact m f)) {l : Ledger}
    (h : P l.memo) (as : List Attempt) : P (l.enterAll as).2.memo := by
  change P (as.foldl Ledger.enter l).memo
  induction as generalizing l with
  | nil => exact h
  | cons a rest ih =>
    rw [List.foldl_cons]
    apply ih
    cases a with
    | rejected => exact h
    | undefined key => exact h
    | discharged proven child => exact memo_foldl_recordFact record proven h

theorem memo_expand (record : ∀ m f, P m → P (Ledger.recordFact m f)) (s : Setting)
    {l : Ledger} (h : P l.memo) (solution : Solution) : P (expand s l solution).2.memo := by
  rcases expand_cases s l solution with hnone | ⟨position, g, clauses, l', -, -, -, hexpand, hmemo, -⟩
  · rwa [hnone]
  · rw [hexpand]
    exact memo_enterAll record (hmemo ▸ h) _

namespace Listing

theorem memo_advance (record : ∀ m f, P m → P (Ledger.recordFact m f)) (s : Setting)
    {p : Listing} (h : P p.base.ledger.memo) (solution : Solution)
    (behind : Queue (Nat × Solution)) : P (p.advance s solution behind).base.ledger.memo := by
  rw [advance]
  simp only
  obtain ⟨pruned, hledger⟩ := exists_ledger_foldl _ _
  rw [hledger]
  exact memo_expand record s (l := p.base.ledger.count _) h solution

/-- What every record keeps, a run keeps, also one that a deadline cuts off. -/
theorem memo_run (record : ∀ m f, P m → P (Ledger.recordFact m f)) {s : Setting}
    {stopEarly : Bool} {deadline : Option Nat} {passes : Nat} {p : Listing}
    (h : P p.base.ledger.memo) :
    P (run s stopEarly deadline passes p).2.base.ledger.memo :=
  run_induction (P := fun p => P p.base.ledger.memo) h
    (fun _ solution behind hp _ => memo_advance record s hp solution behind) passes

theorem grownFrom_run {s : Setting} {stopEarly : Bool} {deadline : Option Nat} {passes : Nat}
    {p : Listing} : (run s stopEarly deadline passes p).2.base.ledger.memo.GrownFrom
      p.base.ledger.memo := by
  refine memo_run (P := (Memo.GrownFrom · p.base.ledger.memo)) (fun m f h => ?_) (.refl _)
  rcases Ledger.recordFact_cases m f with hsame | ⟨values, hrecord⟩
  · rwa [hsame]
  · rw [hrecord]
    exact (m.grownFrom_record _ values).trans h

/-- The tuples that a run records are as long as their keys say. -/
theorem holds_run {s : Setting} {stopEarly : Bool} {deadline : Option Nat} {passes : Nat} {p : Listing}
    (h : p.base.ledger.memo.Holds fun _ _ => True) :
    (run s stopEarly deadline passes p).2.base.ledger.memo.Holds fun _ _ => True := by
  refine memo_run (P := (Memo.Holds · fun _ _ => True)) (fun m f hm => ?_) h
  rcases Ledger.recordFact_cases m f with hsame | ⟨values, hrecord⟩
  · rwa [hsame]
  · rw [hrecord]
    exact hm.record trivial

end Listing

end Horn.Search
