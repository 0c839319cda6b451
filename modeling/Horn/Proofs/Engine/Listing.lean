import Horn.Engine.Search
import Horn.Proofs.Program.Candidates
import Horn.Proofs.Search.Listing

/-!
Searches of an engine as listings.

`Engine.found_eq` and `Engine.searchWithin_fst` read what a search returns, and what it leaves in the
memo, off a run that keeps the solutions it made in a list.
-/

set_option autoImplicit false
set_option relaxedAutoImplicit false

namespace Horn.Engine

open Builtin (Ambient)
open Search (Listing)

/-- The program that a search runs on: the clause of the query before those of the active table. -/
def setting (e : Engine) (goal : Fact) : Search.Setting :=
  ⟨e.registry, e.table.program.pushFront (queryClause goal)⟩

/-- The clauses of a key are those of the active table, behind the clause of the query. -/
theorem candidates_setting (e : Engine) (goal : Fact) (key : String) :
    (e.setting goal).program.candidates key =
      (queryClause goal :: e.clauses).filter fun c => c.key = key :=
  Program.candidates_pushFront _ _ _

theorem length_candidates_lt (e : Engine) (goal : Fact) (key : String) :
    ((e.setting goal).program.candidates key).length < e.clauses.length + 2 := by
  rw [candidates_setting]
  exact Nat.lt_succ_of_le (List.length_filter_le _ _)

/-- The run for a goal on the active table, with a list of the solutions made. -/
def listing (e : Engine) (deadline : Option Nat) (passes : Nat) (goal : Fact) (stopEarly : Bool)
    (ambient : Ambient) : Bool × Listing :=
  Listing.run (e.setting goal) stopEarly deadline passes
    (.start ⟨e.table.memo, ambient, 0, .zero⟩ (goal.withFunctor queryFunctor))

/-- The facts that a listed run found, if it came to its end. -/
def listed? (goal : Fact) (stopEarly : Bool) : Bool × Listing → Option (List Fact)
  | (true, p) => some ((p.answers stopEarly).map (Fact.ofLiterals goal.functor))
  | (false, _) => none

variable {e : Engine} {deadline : Option Nat} {passes : Nat} {goal : Fact} {stopEarly : Bool}
  {ambient : Ambient}

theorem runWithin_eq : e.runWithin deadline passes goal stopEarly ambient =
    Listing.outcome (e.listing deadline passes goal stopEarly ambient) := by
  rw [listing, ← Listing.run_progress, Listing.progress_start]
  rfl

/-- What a search returns. -/
theorem found_eq (unreserved : goal.functor ≠ queryFunctor) :
    (e.searchWithin deadline passes goal stopEarly ambient).2.found =
      listed? goal stopEarly (e.listing deadline passes goal stopEarly ambient) := by
  rw [searchWithin, if_neg unreserved]
  simp only [runWithin_eq]
  obtain ⟨ended, p⟩ := e.listing deadline passes goal stopEarly ambient
  cases ended with
  | false => rfl
  | true => simp only [Listing.outcome, found?, listed?, Listing.answers_progress]

/-- A run found facts if it came to its end, and these are its answers. -/
theorem listed?_eq_some_iff {result : Bool × Listing} {facts : List Fact} :
    listed? goal stopEarly result = some facts ↔ result.1 = true ∧
      (result.2.answers stopEarly).map (Fact.ofLiterals goal.functor) = facts := by
  obtain ⟨ended, p⟩ := result
  cases ended <;> simp [listed?]

/-- The engine after a search. -/
theorem searchWithin_fst (unreserved : goal.functor ≠ queryFunctor) :
    (e.searchWithin deadline passes goal stopEarly ambient).1 =
      { e.withTable ⟨(e.table.program.pushFront (queryClause goal)).popFront,
          (e.listing deadline passes goal stopEarly ambient).2.base.ledger.memo⟩ with
        lastStats := (e.listing deadline passes goal stopEarly ambient).2.base.ledger.stats } := by
  rw [searchWithin, if_neg unreserved]
  simp only [runWithin_eq]
  obtain ⟨ended, p⟩ := e.listing deadline passes goal stopEarly ambient
  cases ended <;> rfl

end Horn.Engine
