import Horn.Literal.Equality
import Horn.Proofs.Memo.Recorded
import Horn.Proofs.Search.Support
import Horn.Search.Run

/-!
The search loop with a list of the solutions made so far in place of their fingerprints.

`looksLike` compares two solutions without hashing, and `fingerprint_beq` says that it agrees with
the comparison of fingerprints. A `Listing` is a search under way that keeps the solutions it has
made; `run_progress` says that it goes through the same states as the loop itself. Statements about
which solutions were met before are proved about listings, and on fixed inputs a listing can be
evaluated.
-/

set_option autoImplicit false
set_option relaxedAutoImplicit false

namespace Horn.Search

/-- The names of the occurrences of variables in a solution. -/
def occurring (solution : Solution) : List VarName :=
  solution.flatMap fun g => g.fact.varNames

/-- The number of each occurrence, counted by first occurrence through the solution. -/
def numbering (solution : Solution) : List Nat :=
  (occurring solution).map (Numbering.ofNames (occurring solution)).number

/-- Goals of the same shapes, and the same numbers at the occurrences of variables. -/
def looksLike (a b : Solution) : Bool :=
  a.isEqv b Goal.sameShape && numbering a == numbering b

theorem toList_numbers_fingerprint (solution : Solution) :
    (fingerprint solution).numbers.toList = numbering solution := by
  rw [numbers_fingerprint, Fact.numbers_eq, Numbering.toList_ofOccurrences, numbering, occurring,
    List.flatMap_map]

/-- Solutions have equal fingerprints if they look alike. -/
theorem fingerprint_beq (a b : Solution) : (fingerprint a == fingerprint b) = looksLike a b := by
  have hnumbers : (fingerprint a).numbers = (fingerprint b).numbers ↔ numbering a = numbering b := by
    rw [← Array.toList_inj, toList_numbers_fingerprint, toList_numbers_fingerprint]
  rw [Bool.eq_iff_iff, Fingerprint.beq_iff, hnumbers, looksLike, Bool.and_eq_true, beq_iff_eq,
    and_comm]
  rfl

theorem looksLike_self (a : Solution) : looksLike a a = true := by
  rw [← fingerprint_beq]
  exact BEq.rfl

theorem looksLike_symm {a b : Solution} (h : looksLike a b = true) : looksLike b a = true := by
  rw [← fingerprint_beq] at h ⊢
  exact BEq.symm h

theorem looksLike_trans {a b c : Solution} (h : looksLike a b = true) (k : looksLike b c = true) :
    looksLike a c = true := by
  rw [← fingerprint_beq] at h k ⊢
  exact BEq.trans h k

theorem length_eq_of_looksLike {a b : Solution} (h : looksLike a b = true) : a.length = b.length :=
  Elementwise.length_eq (Bool.and_eq_true_iff.1 h).1

/-- A search under way: all but the fingerprints, which `base` leaves out, and the solutions made so
far, the last one first. -/
structure Listing where
  base : Progress
  made : List Solution

namespace Listing

/-- The fingerprints of the solutions made so far. -/
def seen (made : List Solution) : Std.HashSet Fingerprint :=
  made.foldr (fun solution seen => seen.insert (fingerprint solution)) ∅

/-- The state of the loop. -/
def progress (p : Listing) : Progress :=
  { p.base with seen := seen p.made }

/-- The start of a search for a fact that stands for the query. -/
def start (ledger : Ledger) (query : Fact) : Listing :=
  ⟨Progress.start ledger query, [[Goal.pending 0 query]]⟩

/-- Whether a solution looks like one made before. -/
def isKnown (p : Listing) (solution : Solution) : Bool :=
  p.made.any (looksLike · solution)

/-- Takes in a new partial solution, unless one that looks alike was there before. -/
def takeIn (p : Listing) (child : Solution) : Listing :=
  { base :=
      if p.isKnown child then
        { p.base with
          ledger := p.base.ledger.count fun c =>
            { c with prunedDuplicates := c.prunedDuplicates + 1 } }
      else p.base.file child
    made := child :: p.made }

/-- Expands one solution and takes in its children; meanwhile time goes by. -/
def advance (s : Setting) (p : Listing) (solution : Solution) (behind : Queue (Nat × Solution)) :
    Listing :=
  let ledger := p.base.ledger.count fun c => { c with iterations := c.iterations + 1 }
  let (children, ledger) := expand s ledger solution
  let ledger := ledger.spend (passEffort + childrenEffort children)
  children.foldl takeIn ⟨{ p.base with ledger, opened := behind }, p.made⟩

/-- Runs the loop, so many passes at most, and tells whether it came to its end. -/
def run (s : Setting) (stopEarly : Bool) (deadline : Option Nat) :
    (passes : Nat) → Listing → Bool × Listing
  | 0, p => (false, p)
  | passes + 1, p =>
    if p.base.isLate deadline then (false, p)
    else
      match p.base.next? stopEarly with
      | none => (true, p)
      | some (solution, behind) => run s stopEarly deadline passes (p.advance s solution behind)

/-- How a run that was listed ended. -/
def outcome : Bool × Listing → Outcome
  | (true, p) => .exhausted p.progress
  | (false, p) => .timedOut p.progress

@[simp] theorem progress_outcome (result : Bool × Listing) :
    (outcome result).progress = result.2.progress := by
  obtain ⟨ended, p⟩ := result
  cases ended <;> rfl

theorem contains_seen (made : List Solution) (solution : Solution) :
    (seen made).contains (fingerprint solution) = made.any (looksLike · solution) := by
  induction made with
  | nil => simp [seen]
  | cons first rest ih =>
    rw [seen, List.foldr_cons, Std.HashSet.contains_insert, fingerprint_beq, List.any_cons, ← ih,
      seen]

theorem progress_start (ledger : Ledger) (query : Fact) :
    (start ledger query).progress = .start ledger query := rfl

private theorem progress_takeIn (p : Listing) (child : Solution) :
    (p.takeIn child).progress = p.progress.takeIn child := by
  rw [Progress.takeIn]
  simp only [Std.HashSet.containsThenInsert_fst, Std.HashSet.containsThenInsert_snd]
  have hknown : p.progress.seen.contains (fingerprint child) = p.isKnown child :=
    contains_seen p.made child
  rw [hknown, progress, takeIn]
  cases p.isKnown child with
  | true => rfl
  | false =>
    simp only [Progress.file]
    cases hasPending child <;> rfl

theorem progress_foldl_takeIn (children : List Solution) (p : Listing) :
    (children.foldl takeIn p).progress = children.foldl Progress.takeIn p.progress := by
  induction children generalizing p with
  | nil => rfl
  | cons child rest ih => rw [List.foldl_cons, ih, progress_takeIn, List.foldl_cons]

theorem progress_advance (s : Setting) (p : Listing) (solution : Solution)
    (behind : Queue (Nat × Solution)) :
    (p.advance s solution behind).progress = p.progress.advance s solution behind :=
  progress_foldl_takeIn _ _

/-- A listed run goes through the states of the loop and ends as the loop does. -/
theorem run_progress (s : Setting) (stopEarly : Bool) (deadline : Option Nat) (passes : Nat)
    (p : Listing) :
    Search.run s stopEarly deadline passes p.progress =
      outcome (run s stopEarly deadline passes p) := by
  induction passes generalizing p with
  | zero => rfl
  | succ passes ih =>
    have hlate : p.progress.isLate deadline = p.base.isLate deadline := rfl
    have hnext : p.progress.next? stopEarly = p.base.next? stopEarly := rfl
    rw [Search.run, run, hlate, hnext]
    cases p.base.isLate deadline with
    | true => rfl
    | false =>
      cases p.base.next? stopEarly with
      | none => rfl
      | some entry =>
        simp only [Bool.false_eq_true, if_false]
        rw [← progress_advance, ih]

/-- One pass of a run. -/
theorem run_succ_of_next {s : Setting} {stopEarly : Bool} {deadline : Option Nat} {passes : Nat}
    {p : Listing} {solution : Solution} {behind : Queue (Nat × Solution)}
    (early : p.base.isLate deadline = false)
    (next : p.base.next? stopEarly = some (solution, behind)) :
    run s stopEarly deadline (passes + 1) p =
      run s stopEarly deadline passes (p.advance s solution behind) := by
  rw [run, early, next]
  rfl

/-- Taking in children counts the ones left out, and changes nothing else in the ledger. -/
theorem exists_ledger_foldl (children : List Solution) (p : Listing) :
    ∃ pruned, (children.foldl takeIn p).base.ledger =
      p.base.ledger.count fun c => { c with prunedDuplicates := c.prunedDuplicates + pruned } := by
  induction children generalizing p with
  | nil => exact ⟨0, rfl⟩
  | cons child rest ih =>
    obtain ⟨pruned, hrest⟩ := ih (p.takeIn child)
    rw [List.foldl_cons, hrest, takeIn]
    cases p.isKnown child with
    | true => exact ⟨1 + pruned, by simp [Ledger.count, Nat.add_assoc]⟩
    | false =>
      refine ⟨pruned, ?_⟩
      rw [Progress.file]
      cases hasPending child <;> rfl

/-- A pass does not change which predicates are memoized. -/
theorem enabled_advance (s : Setting) (p : Listing) (solution : Solution)
    (behind : Queue (Nat × Solution)) :
    (p.advance s solution behind).base.ledger.memo.enabled = p.base.ledger.memo.enabled := by
  rw [advance]
  simp only
  obtain ⟨pruned, hledger⟩ := exists_ledger_foldl _ _
  rw [hledger]
  exact enabled_expand s _ solution

/-- Entering attempts records tuples of memoized predicates only. -/
private theorem confined_enterAll {l : Ledger} (confined : l.memo.IsConfined) {as : List Attempt}
    (proven : ∀ a ∈ as, ∀ facts child, a = .discharged facts child →
      ∀ f ∈ facts, l.memo.isEnabled f.key = true) : (l.enterAll as).2.memo.IsConfined := by
  have hrecord (facts : List Fact) (memo : Memo) (h : memo.IsConfined)
      (enabled : ∀ f ∈ facts, memo.isEnabled f.key = true) :
      (facts.foldl Ledger.recordFact memo).IsConfined ∧
        (facts.foldl Ledger.recordFact memo).isEnabled = memo.isEnabled := by
    induction facts generalizing memo with
    | nil => exact ⟨h, rfl⟩
    | cons f rest ih =>
      rw [List.forall_mem_cons] at enabled
      rw [List.foldl_cons, Ledger.recordFact]
      cases f.literals? with
      | none => exact ih memo h enabled.2
      | some values => exact ih _ (h.record enabled.1 values) enabled.2
  change (as.foldl Ledger.enter l).memo.IsConfined
  induction as generalizing l with
  | nil => exact confined
  | cons a rest ih =>
    rw [List.forall_mem_cons] at proven
    cases a with
    | rejected => exact ih confined proven.2
    | undefined key => exact ih (l := l.enter (.undefined key)) confined proven.2
    | discharged facts child =>
      obtain ⟨hconfined, henabled⟩ := hrecord facts l.memo confined (proven.1 facts child rfl)
      refine ih (l := l.enter (.discharged facts child)) hconfined fun a ha facts child hdone f hf => ?_
      exact (congrFun henabled f.key).trans (proven.2 a ha facts child hdone f hf)

theorem confined_expand (s : Setting) {l : Ledger} (confined : l.memo.IsConfined)
    (solution : Solution) : (expand s l solution).2.memo.IsConfined := by
  rcases expand_cases s l solution with hnone | ⟨position, g, clauses, l', -, -, -, hexpand, hmemo, -⟩
  · rwa [hnone]
  · rw [hexpand]
    refine confined_enterAll (hmemo ▸ confined) fun a ha facts child hdone f hf => ?_
    obtain ⟨c, -, rfl⟩ := List.mem_map.1 ha
    obtain ⟨b, -, -, -, -, rfl, -⟩ := attempt_eq_discharged hdone
    exact hmemo ▸ memoized_of_mem_compact hf

/-- A run records tuples of memoized predicates only. -/
theorem confined_run {s : Setting} {stopEarly : Bool} {deadline : Option Nat} {passes : Nat}
    {p : Listing} (confined : p.base.ledger.memo.IsConfined) :
    (run s stopEarly deadline passes p).2.base.ledger.memo.IsConfined := by
  induction passes generalizing p with
  | zero => exact confined
  | succ passes ih =>
    rw [run]
    split
    · exact confined
    · split
      · exact confined
      · refine ih ?_
        rw [advance]
        simp only
        obtain ⟨pruned, hledger⟩ := exists_ledger_foldl _ _
        rw [hledger]
        exact confined_expand s (l := p.base.ledger.count _) confined _

/-- A run goes from one state to another by passes that are made in time. -/
inductive Visits (s : Setting) (stopEarly : Bool) (deadline : Option Nat) : Listing → Listing → Prop
  | refl (p : Listing) : Visits s stopEarly deadline p p
  | pass {p q : Listing} {solution : Solution} {behind : Queue (Nat × Solution)}
      (early : p.base.isLate deadline = false)
      (next : p.base.next? stopEarly = some (solution, behind))
      (rest : Visits s stopEarly deadline (p.advance s solution behind) q) :
      Visits s stopEarly deadline p q

theorem Visits.enabled {s : Setting} {stopEarly : Bool} {deadline : Option Nat} {p q : Listing}
    (h : Visits s stopEarly deadline p q) :
    q.base.ledger.memo.enabled = p.base.ledger.memo.enabled := by
  induction h with
  | refl p => rfl
  | pass _ _ _ ih => rw [ih, enabled_advance]

/-- The tuples of values that answer the query. -/
def answers (stopEarly : Bool) (p : Listing) : List (List Literal) :=
  let found := (p.base.finished.reverse.filterMap Progress.tuple?).eraseDups
  if stopEarly then found.take 1 else found

theorem answers_progress (stopEarly : Bool) (p : Listing) :
    p.progress.answers stopEarly = p.answers stopEarly := by
  rw [Progress.answers, answers, distinct_eq_eraseDups]
  rfl

end Listing

end Horn.Search
