import Horn.Proofs.Search.Waiting

/-!
Runs, pass by pass.

Without a deadline a run of many passes is a run of some of them and then of the others:
`Listing.run_add`. So a run that has come to its end comes to the same end if it may make more
passes, and a statement about one pass becomes one about the state in which a run leaves off.
-/

set_option autoImplicit false
set_option relaxedAutoImplicit false

namespace Horn.Search

/-- The ledger of a pass, which is counted before anything is expanded. -/
def Progress.counted (p : Progress) : Ledger :=
  p.ledger.count fun c => { c with iterations := c.iterations + 1 }

/-- The state of a pass once a solution is expanded, before its children are taken in. -/
def Progress.popped (s : Setting) (p : Progress) (solution : Solution)
    (behind : Queue (Nat × Solution)) : Progress :=
  let (children, ledger) := expand s p.counted solution
  { p with ledger := ledger.spend (passEffort + childrenEffort children), opened := behind }

namespace Listing

variable {s : Setting} {stopEarly : Bool} {p q : Listing} {solution : Solution}
  {behind : Queue (Nat × Solution)}

def counted (p : Listing) : Ledger :=
  p.base.counted

def popped (s : Setting) (p : Listing) (solution : Solution) (behind : Queue (Nat × Solution)) :
    Listing :=
  ⟨p.base.popped s solution behind, p.made⟩

theorem advance_eq (s : Setting) (p : Listing) (solution : Solution)
    (behind : Queue (Nat × Solution)) :
    p.advance s solution behind =
      (expand s p.counted solution).1.foldl takeIn (p.popped s solution behind) := rfl

/-- What waits after a pass has waited before, or it is a child of what was expanded. -/
theorem forall_waiting_advance {P : Solution → Prop}
    (waiting : p.waiting = solution :: behind.toList.map Prod.snd) (old : ∀ a ∈ p.waiting, P a)
    (children : ∀ a ∈ (expand s p.counted solution).1, P a) :
    ∀ a ∈ (p.advance s solution behind).waiting, P a := by
  rw [waiting, List.forall_mem_cons] at old
  obtain ⟨new, hnew, hsublist⟩ := exists_waiting_foldl (expand s p.counted solution).1
    (p.popped s solution behind)
  rw [advance_eq, hnew]
  exact List.forall_mem_append.2 ⟨old.2, fun a ha => children a (hsublist.subset ha)⟩

/-- A run ends at once where nothing is left to do. -/
theorem run_of_last (last : p.base.next? stopEarly = none) {passes : Nat} (some : passes ≠ 0) :
    run s stopEarly none passes p = (true, p) := by
  obtain ⟨passes, rfl⟩ := Nat.exists_eq_succ_of_ne_zero some
  rw [run, if_neg (by simp [Progress.isLate]), last]

/-- A run of many passes is a run of some of them and, unless that has ended, of the others. -/
theorem run_add (s : Setting) (stopEarly : Bool) (first rest : Nat) (p : Listing) :
    run s stopEarly none (first + rest) p =
      if (run s stopEarly none first p).1 then run s stopEarly none first p
      else run s stopEarly none rest (run s stopEarly none first p).2 := by
  induction first generalizing p with
  | zero => simp [run]
  | succ first ih =>
    rw [Nat.add_right_comm]
    cases hnext : p.base.next? stopEarly with
    | none => simp [run_of_last hnext]
    | some entry => rw [run_succ_of_next rfl hnext, run_succ_of_next rfl hnext, ih]

theorem run_add_of_going {first : Nat} (going : (run s stopEarly none first p).1 = false)
    (rest : Nat) : run s stopEarly none (first + rest) p =
      run s stopEarly none rest (run s stopEarly none first p).2 := by
  rw [run_add, if_neg (by simp [going])]

/-- A run that has come to its end comes to the same end if it may make more passes. -/
theorem run_of_le {few many : Nat} (ended : run s stopEarly none few p = (true, q))
    (le : few ≤ many) : run s stopEarly none many p = (true, q) := by
  obtain ⟨rest, rfl⟩ := Nat.exists_eq_add_of_le le
  rw [run_add, ended, if_pos rfl]

/-- A run that goes on after some passes went on before. -/
theorem going_of_le {few many : Nat} (going : (run s stopEarly none many p).1 = false)
    (le : few ≤ many) : (run s stopEarly none few p).1 = false := by
  cases hended : (run s stopEarly none few p).1 with
  | false => rfl
  | true => rw [run_of_le (Prod.ext hended rfl) le] at going; exact going

theorem run_succ_of_going {passes : Nat}
    (going : (run s stopEarly none (passes + 1) p).1 = false) :
    ∃ solution behind, (run s stopEarly none passes p).2.base.next? stopEarly =
        some (solution, behind) ∧
      (run s stopEarly none (passes + 1) p).2 =
        (run s stopEarly none passes p).2.advance s solution behind := by
  have hbefore := going_of_le going (Nat.le_succ passes)
  rw [run_add_of_going hbefore] at going ⊢
  cases hnext : (run s stopEarly none passes p).2.base.next? stopEarly with
  | none => rw [run_of_last hnext Nat.one_ne_zero] at going; exact absurd going (by simp)
  | some entry => exact ⟨entry.1, entry.2, rfl, by rw [run_succ_of_next rfl hnext, run]⟩

/-- The pass that finds a run at its end leaves the state as it is. -/
theorem run_succ_of_ended {passes : Nat} (ended : (run s stopEarly none (passes + 1) p).1 = true) :
    (run s stopEarly none (passes + 1) p).2 = (run s stopEarly none passes p).2 := by
  rw [run_add] at ended ⊢
  split at ended
  · rw [if_pos ‹_›]
  · rw [if_neg ‹_›]
    cases hnext : (run s stopEarly none passes p).2.base.next? stopEarly with
    | none => rw [run_of_last hnext Nat.one_ne_zero]
    | some entry =>
      rw [run_succ_of_next rfl hnext, run] at ended
      cases ended

/-- The state in which an ended run leaves off has nothing left to do. -/
theorem next?_of_ended {passes : Nat} (ended : run s stopEarly none passes p = (true, q)) :
    q.base.next? stopEarly = none := by
  induction passes generalizing p with
  | zero => simp [run] at ended
  | succ passes ih =>
    cases hnext : p.base.next? stopEarly with
    | none =>
      rw [run_of_last hnext (Nat.succ_ne_zero _)] at ended
      obtain ⟨-, rfl⟩ := Prod.mk.inj ended
      exact hnext
    | some entry =>
      rw [run_succ_of_next rfl hnext] at ended
      exact ih ended

/-- What holds once a solution is expanded, and is kept as its children are taken in, holds after the
pass. -/
theorem advance_induction {P : Listing → Prop} (popped : P (p.popped s solution behind))
    (taken : ∀ q, ∀ child ∈ (expand s p.counted solution).1, P q → P (q.takeIn child)) :
    P (p.advance s solution behind) := by
  rw [advance_eq]
  exact List.foldlRecOn _ _ popped fun q hq child hchild => taken q child hchild hq

/-- What holds at the start of a run and is kept by every pass holds where the run leaves off. -/
theorem run_induction {P : Listing → Prop} (start : P p)
    (pass : ∀ p solution behind, P p → p.base.next? stopEarly = some (solution, behind) →
      P (p.advance s solution behind)) {deadline : Option Nat} (passes : Nat) :
    P (run s stopEarly deadline passes p).2 := by
  induction passes generalizing p with
  | zero => exact start
  | succ passes ih =>
    rw [run]
    split
    · exact start
    · cases hnext : p.base.next? stopEarly with
      | none => exact start
      | some entry => exact ih (pass p entry.1 entry.2 start hnext)

theorem le_iterations_run (s : Setting) (stopEarly : Bool) (deadline : Option Nat) (passes : Nat)
    (p : Listing) : p.base.ledger.stats.iterations ≤
      (run s stopEarly deadline passes p).2.base.ledger.stats.iterations := by
  induction passes generalizing p with
  | zero => exact Nat.le_refl _
  | succ passes ih =>
    rw [run]
    split
    · exact Nat.le_refl _
    · split
      · exact Nat.le_refl _
      · rename_i solution behind _
        refine Nat.le_trans ?_ (ih _)
        rw [iterations_advance]
        exact Nat.le_succ _

end Listing

end Horn.Search
