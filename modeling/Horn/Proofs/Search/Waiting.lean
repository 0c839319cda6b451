import Horn.Proofs.Search.Listing

/-!
What waits in a search under way, and what stands.

`Listing.waiting` is the queue without the numbers; together with the finished solutions it makes up
`Listing.standing`. `takeIn_cases` says once what becomes of a new solution, and the statements about
a pass are read off it: what waits afterwards is what waited before, without the first and with some of
its children behind. An expansion has few children, and every pass is counted.
-/

set_option autoImplicit false
set_option relaxedAutoImplicit false

namespace Horn.Search

/-! ### Expansions -/

/-- An expansion has at most one child for each clause, or one for a value. -/
theorem length_expand_le (s : Setting) (l : Ledger) (solution : Solution) {width : Nat}
    (few : ∀ key, (s.program.candidates key).length < width) :
    (expand s l solution).1.length ≤ width := by
  have hpos : 1 ≤ width := Nat.lt_of_le_of_lt (Nat.zero_le _) (few "")
  have henter (l : Ledger) (as : List Attempt) : (l.enterAll as).1.length ≤ as.length :=
    List.length_filterMap_le _ _
  rw [expand]
  split
  · exact Nat.zero_le _
  · split
    · rw [expandBuiltin]
      simp only
      split
      · exact Nat.zero_le _
      · exact Nat.le_trans (henter _ _) hpos
    · exact Nat.zero_le _
  · split
    · rw [expandGoal]
      split
      · exact Nat.le_trans (henter _ _) hpos
      · rw [expandClauses_eq]
        refine Nat.le_trans (henter _ _) ?_
        rw [attempts, renamedClauses, List.length_map, List.length_map, length_renameClauses]
        exact Nat.le_of_lt (few _)
    · exact Nat.zero_le _

theorem iterations_enterAll (l : Ledger) (as : List Attempt) :
    (l.enterAll as).2.stats.iterations = l.stats.iterations := by
  change (as.foldl Ledger.enter l).stats.iterations = l.stats.iterations
  induction as generalizing l with
  | nil => rfl
  | cons a rest ih =>
    rw [List.foldl_cons, ih]
    cases a with
    | rejected => rfl
    | undefined key =>
      change (l.stats.report key).iterations = l.stats.iterations
      rw [Stats.report]
      split <;> rfl
    | discharged proven child => rfl

/-- An expansion does not count as an iteration by itself. -/
theorem iterations_expand (s : Setting) (l : Ledger) (solution : Solution) :
    (expand s l solution).2.stats.iterations = l.stats.iterations := by
  rw [expand]
  split
  · rfl
  · split
    · rw [expandBuiltin]
      simp only
      split
      · rfl
      · exact iterations_enterAll _ _
    · rfl
  · split
    · rw [expandGoal]
      split
      · exact iterations_enterAll _ _
      · exact iterations_enterAll _ _
    · rfl

/-! ### Passes -/

/-- What `next?` takes from the queue, and what it leaves. -/
theorem Progress.toList_of_next? {stopEarly : Bool} {p : Progress} {solution : Solution}
    {behind : Queue (Nat × Solution)} (h : p.next? stopEarly = some (solution, behind)) :
    ∃ number, p.opened.toList = (number, solution) :: behind.toList := by
  rw [Progress.next?] at h
  split at h
  · simp at h
  · rename_i number first rest hpop
    split at h
    · simp at h
    · simp only [Option.some.injEq, Prod.mk.injEq] at h
      obtain ⟨rfl, rfl⟩ := h
      exact ⟨number, Queue.toList_of_pop? hpop⟩

namespace Listing

/-- The solutions that wait to be expanded, in order. -/
def waiting (p : Listing) : List Solution :=
  p.base.opened.toList.map Prod.snd

/-- The solutions that are open or finished. -/
def standing (p : Listing) : List Solution :=
  p.waiting ++ p.base.finished

/-! ### Taking in children -/

/-- A new partial solution is left out, or it waits behind the others, or it is finished. -/
theorem takeIn_cases (p : Listing) (child : Solution) :
    (p.isKnown child = true ∧ (p.takeIn child).waiting = p.waiting ∧
        (p.takeIn child).base.finished = p.base.finished) ∨
      (hasPending child = true ∧ (p.takeIn child).waiting = p.waiting ++ [child] ∧
        (p.takeIn child).base.finished = p.base.finished) ∨
      (hasPending child = false ∧ (p.takeIn child).waiting = p.waiting ∧
        (p.takeIn child).base.finished = child :: p.base.finished) := by
  cases hknown : p.isKnown child with
  | true =>
    left
    rw [takeIn, if_pos hknown]
    exact ⟨rfl, rfl, rfl⟩
  | false =>
    right
    rw [takeIn, if_neg (by simp [hknown]), Progress.file]
    cases hasPending child with
    | true => exact .inl ⟨rfl, by simp [waiting], rfl⟩
    | false => exact .inr ⟨rfl, rfl, rfl⟩

@[simp] theorem made_takeIn (p : Listing) (child : Solution) :
    (p.takeIn child).made = child :: p.made := rfl

/-- What waits once some children are taken in: what waited before, and some of the children. -/
theorem exists_waiting_foldl (children : List Solution) (p : Listing) :
    ∃ new, (children.foldl takeIn p).waiting = p.waiting ++ new ∧ new.Sublist children := by
  induction children generalizing p with
  | nil => exact ⟨[], by simp⟩
  | cons child rest ih =>
    obtain ⟨new, hnew, hsublist⟩ := ih (p.takeIn child)
    rw [List.foldl_cons]
    rcases p.takeIn_cases child with ⟨-, hwaiting, -⟩ | ⟨-, hwaiting, -⟩ | ⟨-, hwaiting, -⟩
    · exact ⟨new, hwaiting ▸ hnew, hsublist.cons child⟩
    · exact ⟨child :: new, by simp [hnew, hwaiting], hsublist.cons_cons child⟩
    · exact ⟨new, hwaiting ▸ hnew, hsublist.cons child⟩

theorem mem_finished_foldl {children : List Solution} {p : Listing} {solution : Solution}
    (h : solution ∈ p.base.finished) : solution ∈ (children.foldl takeIn p).base.finished := by
  induction children generalizing p with
  | nil => exact h
  | cons child rest ih =>
    refine ih ?_
    rcases p.takeIn_cases child with ⟨-, -, hfinished⟩ | ⟨-, -, hfinished⟩ | ⟨-, -, hfinished⟩ <;>
      simp [hfinished, h]

theorem mem_made_foldl {children : List Solution} {p : Listing} {solution : Solution} :
    solution ∈ (children.foldl takeIn p).made ↔ solution ∈ children ∨ solution ∈ p.made := by
  induction children generalizing p with
  | nil => simp
  | cons child rest ih =>
    rw [List.foldl_cons, ih, made_takeIn, List.mem_cons, List.mem_cons, or_assoc, or_left_comm]

/-- A new solution is left out or stands behind the others, which stay. -/
theorem mem_standing_takeIn (p : Listing) (child : Solution) :
    (p.isKnown child = true ∧ (p.takeIn child).standing = p.standing) ∨
      ∀ solution, solution ∈ (p.takeIn child).standing ↔ solution = child ∨ solution ∈ p.standing := by
  rcases p.takeIn_cases child with
    ⟨hknown, hwaiting, hfinished⟩ | ⟨-, hwaiting, hfinished⟩ | ⟨-, hwaiting, hfinished⟩
  · exact .inl ⟨hknown, by rw [standing, hwaiting, hfinished, standing]⟩
  · refine .inr fun solution => ?_
    simp [standing, hwaiting, hfinished, or_left_comm]
  · refine .inr fun solution => ?_
    simp [standing, hwaiting, hfinished, or_left_comm]

/-- What stands stays. -/
theorem mem_standing_takeIn_of_mem {p : Listing} {solution : Solution} (h : solution ∈ p.standing)
    (child : Solution) : solution ∈ (p.takeIn child).standing := by
  rcases p.mem_standing_takeIn child with ⟨-, heq⟩ | hmem
  · rwa [heq]
  · exact (hmem solution).2 (.inr h)

theorem mem_standing_foldl_of_mem {children : List Solution} {p : Listing} {solution : Solution}
    (h : solution ∈ p.standing) : solution ∈ (children.foldl takeIn p).standing := by
  induction children generalizing p with
  | nil => exact h
  | cons child rest ih => exact ih (mem_standing_takeIn_of_mem h child)

theorem mem_standing_foldl {children : List Solution} {p : Listing} {solution : Solution}
    (h : solution ∈ (children.foldl takeIn p).standing) :
    solution ∈ children ∨ solution ∈ p.standing := by
  induction children generalizing p with
  | nil => exact .inr h
  | cons child rest ih =>
    rcases ih h with hrest | hstanding
    · exact .inl (List.mem_cons_of_mem child hrest)
    · rcases p.mem_standing_takeIn child with ⟨-, heq⟩ | hmem
      · exact .inr (heq ▸ hstanding)
      · rcases (hmem solution).1 hstanding with rfl | hold
        · exact .inl List.mem_cons_self
        · exact .inr hold

/-- What `next?` takes is the first that waits. -/
theorem waiting_of_next? {p : Listing} {stopEarly : Bool} {solution : Solution}
    {behind : Queue (Nat × Solution)} (next : p.base.next? stopEarly = some (solution, behind)) :
    p.waiting = solution :: behind.toList.map Prod.snd := by
  obtain ⟨number, hopened⟩ := Progress.toList_of_next? next
  rw [waiting, hopened, List.map_cons]

/-- A search that looks for all answers takes none only if none waits. -/
theorem waiting_eq_nil {p : Listing} (last : p.base.next? false = none) : p.waiting = [] := by
  rw [Progress.next?] at last
  split at last
  · rename_i hpop
    rw [waiting, Queue.pop?_eq_none_iff.1 hpop, List.map_nil]
  · simp at last

/-- A pass uses up the numbers that its expansion uses up. -/
theorem nextVar_advance (s : Setting) (p : Listing) (solution : Solution)
    (behind : Queue (Nat × Solution)) :
    (p.advance s solution behind).base.ledger.nextVar =
      (expand s (p.base.ledger.count fun c => { c with iterations := c.iterations + 1 })
        solution).2.nextVar := by
  rw [Listing.advance]
  simp only
  obtain ⟨pruned, hledger⟩ := exists_ledger_foldl _ _
  rw [hledger]
  rfl

/-- Every pass is counted. -/
theorem iterations_advance (s : Setting) (p : Listing) (solution : Solution)
    (behind : Queue (Nat × Solution)) :
    (p.advance s solution behind).base.ledger.stats.iterations =
      p.base.ledger.stats.iterations + 1 := by
  rw [Listing.advance]
  simp only
  obtain ⟨pruned, hledger⟩ := exists_ledger_foldl _ _
  rw [hledger]
  exact iterations_expand s _ solution

end Listing

end Horn.Search
