import Horn.Proofs.Search.Descent
import Horn.Proofs.Search.Passes
import Horn.Proofs.Search.Soundness

/-!
A search finds every answer that has a forest of derivations.

Whatever was made leads nowhere that a solution still standing, open or finished, does not lead to by
a forest that is no larger: `Listing.Covering.advance`. The queue is fair, so an open solution that
leads to a tuple is expanded in time, and then a smaller forest suffices. `patience` counts the passes
that this takes at most, and every pass that is made brings it down: `Listing.Due.advance`.
-/

set_option autoImplicit false
set_option relaxedAutoImplicit false

namespace Horn.Search

/-- The number of passes until an answer is finished, at most, if an open solution at this position
of a queue of this length leads to it by a forest of this size, and if no expansion has more
children than `width`. -/
def patience (width : Nat) : (size position length : Nat) → Nat
  | 0, _, _ => 0
  | size + 1, position, length =>
    position + 1 +
      patience width size (length + (position + 1) * width) (length + (position + 1) * width)

theorem patience_mono (width : Nat) {size size' position position' length length' : Nat}
    (hsize : size ≤ size') (hposition : position ≤ position') (hlength : length ≤ length') :
    patience width size position length ≤ patience width size' position' length' := by
  induction size generalizing size' position position' length length' with
  | zero => exact Nat.zero_le _
  | succ size ih =>
    cases size' with
    | zero => omega
    | succ size' =>
      have hwait : (position + 1) * width ≤ (position' + 1) * width := Nat.mul_le_mul_right _ (by omega)
      have hlonger := Nat.add_le_add hlength hwait
      have := ih (Nat.le_of_succ_le_succ hsize) hlonger hlonger
      simp only [patience]
      omega

/-- While another solution is in front, one pass less is needed after a pass. -/
theorem patience_of_behind (width size position : Nat) {length length' : Nat}
    (hlength : length' ≤ length + width) :
    patience width (size + 1) position length' + 1 ≤
      patience width (size + 1) (position + 1) length := by
  have hwait : length' + (position + 1) * width ≤ length + (position + 1 + 1) * width := by
    rw [Nat.add_mul (position + 1) 1]
    omega
  have := patience_mono width (Nat.le_refl size) hwait hwait
  simp only [patience]
  omega

/-- Once the solution is expanded, one of its children needs one pass less. -/
theorem patience_of_front (width : Nat) {size smaller position length length' : Nat}
    (hsmaller : smaller ≤ size) (hposition : position ≤ length') (hlength : length' ≤ length + width) :
    patience width smaller position length' + 1 ≤ patience width (size + 1) 0 length := by
  have hroom : length' ≤ length + (0 + 1) * width := by omega
  have := patience_mono width hsmaller (Nat.le_trans hposition hroom) hroom
  simp only [patience]
  omega

namespace Listing

/-! ### Fitting solutions -/

/-- All solutions that stand are fit. -/
def Fitting (s : Setting) (root : Fact) (p : Listing) : Prop :=
  ∀ solution ∈ p.standing, Fit s root p.base.ledger.nextVar solution

/-- The start of a search is fitting. -/
theorem fitting_start {s : Setting} {root : Fact} {l : Ledger} (user : s.isBuiltin root = false)
    (below : ∀ name ∈ root.varNames, name.Below l.nextVar) : Fitting s root (start l root) := by
  intro solution hsolution
  obtain rfl : solution = [Goal.pending 0 root] := List.mem_singleton.1 hsolution
  exact {
    nonempty := by simp
    below := List.forall_mem_cons.2 ⟨below, by simp⟩
    user := by simpa [pending, Goal.pending] using user
    ground := by simp [Goal.pending]
    determined := by simp [pending, Goal.pending] }

/-- One pass keeps all solutions fit. -/
theorem Fitting.advance {s : Setting} {clauses : List Clause} {root : Fact}
    (complete : Complete s clauses root) {p : Listing} (h : Fitting s root p) {stopEarly : Bool}
    {solution : Solution} {behind : Queue (Nat × Solution)}
    (next : p.base.next? stopEarly = some (solution, behind)) :
    Fitting s root (p.advance s solution behind) := by
  have hwaiting := waiting_of_next? next
  have hfit : Fit s root p.base.ledger.nextVar solution := h solution (by simp [standing, hwaiting])
  let counted := p.base.ledger.count fun c => { c with iterations := c.iterations + 1 }
  intro other hother
  rw [nextVar_advance]
  rcases mem_standing_foldl hother with hchild | hstanding
  · exact hfit.expand complete (l := counted) hchild
  · refine (h other ?_).mono (nextVar_le_expand s counted solution)
    rw [standing, hwaiting]
    exact List.mem_cons_of_mem _ hstanding

/-! ### Covering -/

/-- A search under way stands for all that was made: what a solution leads to is led to by one that is
open or finished, or that is just being expanded, with a forest that is no larger. -/
structure Covering (clauses : List Clause) (expanded : Option Solution) (p : Listing) : Prop where
  opened : ∀ solution ∈ p.waiting, hasPending solution = true
  finished : ∀ solution ∈ p.base.finished, hasPending solution = false
  covers : ∀ answer n, ∀ solution ∈ p.made, Leads clauses answer n solution →
    ∃ other, (other ∈ p.standing ∨ other ∈ expanded) ∧ ∃ k ≤ n, Leads clauses answer k other

variable {s : Setting} {clauses : List Clause} {root : Fact} {answer : List Literal}
  {expanded : Option Solution} {p : Listing}

/-- The start of a search is covering. -/
theorem covering_start (l : Ledger) (root : Fact) : Covering clauses none (start l root) where
  opened solution hsolution := by
    obtain rfl : solution = [Goal.pending 0 root] := List.mem_singleton.1 hsolution
    rfl
  finished solution hsolution := absurd hsolution List.not_mem_nil
  covers answer n solution hsolution hleads :=
    ⟨solution, .inl hsolution, n, Nat.le_refl n, hleads⟩

/-- A child that is taken in stands itself, or one that looks like it is covered already. -/
private theorem Covering.takeIn (h : Covering clauses expanded p) (child : Solution) :
    Covering clauses expanded (p.takeIn child) := by
  have hgrows := p.mem_standing_takeIn child
  have hold : ∀ solution ∈ p.standing, solution ∈ (p.takeIn child).standing :=
    fun _ hsolution => mem_standing_takeIn_of_mem hsolution child
  constructor
  case opened =>
    intro solution hsolution
    rcases p.takeIn_cases child with ⟨-, hwaiting, -⟩ | ⟨hpending, hwaiting, -⟩ | ⟨-, hwaiting, -⟩
    · exact h.opened solution (hwaiting ▸ hsolution)
    · rw [hwaiting, List.mem_append, List.mem_singleton] at hsolution
      rcases hsolution with hsolution | rfl
      · exact h.opened solution hsolution
      · exact hpending
    · exact h.opened solution (hwaiting ▸ hsolution)
  case finished =>
    intro solution hsolution
    rcases p.takeIn_cases child with ⟨-, -, hfinished⟩ | ⟨-, -, hfinished⟩ | ⟨hnone, -, hfinished⟩
    · exact h.finished solution (hfinished ▸ hsolution)
    · exact h.finished solution (hfinished ▸ hsolution)
    · rw [hfinished, List.mem_cons] at hsolution
      rcases hsolution with rfl | hsolution
      · exact hnone
      · exact h.finished solution hsolution
  case covers =>
    have hcovered : ∀ answer n, ∀ solution ∈ p.made, Leads clauses answer n solution →
        ∃ other, (other ∈ (p.takeIn child).standing ∨ other ∈ expanded) ∧
          ∃ k ≤ n, Leads clauses answer k other := by
      intro answer n solution hsolution hleads
      obtain ⟨other, hother, hsmaller⟩ := h.covers answer n solution hsolution hleads
      exact ⟨other, hother.imp_left (hold other), hsmaller⟩
    intro answer n solution hsolution hleads
    rw [made_takeIn, List.mem_cons] at hsolution
    rcases hsolution with rfl | hsolution
    · rcases hgrows with ⟨hknown, -⟩ | hmem
      · obtain ⟨twin, htwin, halike⟩ := List.any_eq_true.1 hknown
        exact hcovered answer n twin htwin (hleads.of_looksLike (looksLike_symm halike))
      · exact ⟨solution, .inl ((hmem solution).2 (.inl rfl)), n, Nat.le_refl n, hleads⟩
    · exact hcovered answer n solution hsolution hleads

private theorem Covering.foldl (h : Covering clauses expanded p) (children : List Solution) :
    Covering clauses expanded (children.foldl Listing.takeIn p) := by
  induction children generalizing p with
  | nil => exact h
  | cons child rest ih => exact ih (h.takeIn child)

/-- One pass of a covering search gives a covering search, and what the expanded solution leads to
is led to by a smaller forest. -/
theorem Covering.advance (complete : Complete s clauses root) (fitting : Fitting s root p)
    (h : Covering clauses none p) {solution : Solution} {behind : Queue (Nat × Solution)}
    (next : p.base.next? false = some (solution, behind))
    (only : ∀ g ∈ (pending solution).head?, IsOnlyAnswer clauses p.base.ledger g.fact) :
    Covering clauses none (p.advance s solution behind) ∧
      ∀ answer n, Leads clauses answer n solution →
        ∃ other ∈ (p.advance s solution behind).standing, ∃ k < n, Leads clauses answer k other := by
  have hwaiting := waiting_of_next? next
  have hstanding : ∀ other, other ∈ p.standing ↔
      other = solution ∨ other ∈ behind.toList.map Prod.snd ++ p.base.finished := by
    intro other
    rw [standing, hwaiting, List.cons_append, List.mem_cons]
  have hfit : Fit s root p.base.ledger.nextVar solution :=
    fitting solution ((hstanding solution).2 (.inl rfl))
  have hpending : hasPending solution = true := h.opened solution (by simp [hwaiting])
  have hchild : ∀ answer n, Leads clauses answer n solution →
      ∃ child ∈ (expand s (p.base.ledger.count fun c => { c with iterations := c.iterations + 1 })
        solution).1, ∃ k < n, Leads clauses answer k child :=
    fun answer n hleads => Fit.exists_child complete (l := p.base.ledger.count _) hfit hpending
      hleads only
  rw [Listing.advance]
  simp only
  generalize expand s _ solution = expansion at hchild
  obtain ⟨children, l⟩ := expansion
  simp only at hchild ⊢
  generalize hp' : (⟨{ p.base with
      ledger := l.spend (passEffort + childrenEffort children)
      opened := behind }, p.made⟩ : Listing) = p'
  have hstart : Covering clauses (some solution) p' := by
    refine ⟨fun other hother => ?_, fun other hother => ?_, ?_⟩
    · exact h.opened other (by rw [hwaiting]; subst hp'; exact List.mem_cons_of_mem _ hother)
    · exact h.finished other (by subst hp'; exact hother)
    · intro answer n old hold hleads
      obtain ⟨other, hother, hsmaller⟩ := h.covers answer n old (by subst hp'; exact hold) hleads
      rcases (hstanding other).1 (by simpa using hother) with rfl | hother
      · exact ⟨other, .inr rfl, hsmaller⟩
      · exact ⟨other, .inl (by subst hp'; exact hother), hsmaller⟩
  have hfolded := hstart.foldl children
  -- What leads through the expanded solution leads through a child, so by a smaller forest.
  have hexpanded : ∀ answer n, Leads clauses answer n solution →
      ∃ other ∈ (children.foldl Listing.takeIn p').standing, ∃ k < n, Leads clauses answer k other := by
    intro answer n
    induction n using Nat.strongRecOn with
    | ind n ih =>
      intro hleads
      obtain ⟨child, hmem, k, hk, hleads⟩ := hchild answer n hleads
      obtain ⟨other, hother, m, hm, hleads⟩ :=
        hfolded.covers answer k child (mem_made_foldl.2 (.inl hmem)) hleads
      rcases hother with hother | hother
      · exact ⟨other, hother, m, by omega, hleads⟩
      · obtain rfl := Option.some.inj hother
        obtain ⟨other, hother, i, hi, hleads⟩ := ih m (by omega) hleads
        exact ⟨other, hother, i, by omega, hleads⟩
  refine ⟨⟨hfolded.opened, hfolded.finished, ?_⟩, hexpanded⟩
  intro answer n old hold hleads
  obtain ⟨other, hother | hother, m, hm, hleads⟩ := hfolded.covers answer n old hold hleads
  · exact ⟨other, .inl hother, m, hm, hleads⟩
  · obtain rfl := Option.some.inj hother
    obtain ⟨other, hother, i, hi, hleads⟩ := hexpanded answer m hleads
    exact ⟨other, .inl hother, i, by omega, hleads⟩

/-! ### Fairness -/

/-- An answer is finished, or it will be once so many passes are made. -/
def Due (clauses : List Clause) (answer : List Literal) (width passes : Nat) (p : Listing) : Prop :=
  (∃ solution ∈ p.base.finished, ∃ n, Leads clauses answer n solution) ∨
    ∃ (position : Nat) (solution : Solution) (n : Nat), p.waiting[position]? = some solution ∧
      Leads clauses answer n solution ∧ patience width n position p.waiting.length ≤ passes

/-- What a standing solution leads to is due. -/
theorem due_of_standing {n : Nat} {solution : Solution} (mem : solution ∈ p.standing)
    (leads : Leads clauses answer n solution) (width : Nat) :
    p.Due clauses answer width (patience width n p.waiting.length p.waiting.length) := by
  rcases List.mem_append.1 mem with hwaiting | hfinished
  · obtain ⟨position, hposition⟩ := List.getElem?_of_mem hwaiting
    obtain ⟨hlt, -⟩ := List.getElem?_eq_some_iff.1 hposition
    exact .inr ⟨position, solution, n, hposition, leads,
      patience_mono width (Nat.le_refl n) (Nat.le_of_lt hlt) (Nat.le_refl _)⟩
  · exact .inl ⟨solution, hfinished, n, leads⟩

/-- A pass brings down the number of passes until the answer is finished. -/
theorem Due.advance (complete : Complete s clauses root) {width : Nat}
    (few : ∀ key, (s.program.candidates key).length < width)
    (fitting : Fitting s root p) (h : Covering clauses none p) {passes : Nat}
    (due : p.Due clauses answer width passes)
    {solution : Solution} {behind : Queue (Nat × Solution)}
    (next : p.base.next? false = some (solution, behind))
    (only : ∀ g ∈ (pending solution).head?, IsOnlyAnswer clauses p.base.ledger g.fact) :
    (p.advance s solution behind).Due clauses answer width (passes - 1) := by
  have hwaiting := waiting_of_next? next
  obtain ⟨new, hadvanced, hlength⟩ : ∃ new, (p.advance s solution behind).waiting =
      behind.toList.map Prod.snd ++ new ∧ new.length ≤ width := by
    obtain ⟨new, hnew, hsublist⟩ := exists_waiting_foldl _ _
    exact ⟨new, hnew, Nat.le_trans hsublist.length_le (length_expand_le s _ solution few)⟩
  have hlonger : (p.advance s solution behind).waiting.length ≤ p.waiting.length + width := by
    rw [hadvanced, hwaiting, List.length_append, List.length_cons]
    omega
  rcases due with ⟨other, hother, hleads⟩ | ⟨position, other, n, hposition, hleads, hpassed⟩
  · exact .inl ⟨other, mem_finished_foldl hother, hleads⟩
  · have hpos : 0 < n := hleads.pos (h.opened other (List.mem_of_getElem? hposition))
    obtain ⟨n, rfl⟩ : ∃ m, n = m + 1 := ⟨n - 1, by omega⟩
    rw [hwaiting] at hposition
    cases position with
    | zero =>
      obtain rfl : solution = other := by simpa using hposition
      obtain ⟨child, hchild, k, hk, hleads⟩ := (h.advance complete fitting next only).2 answer _ hleads
      rcases List.mem_append.1 hchild with hchild | hfinished
      · obtain ⟨position, hposition⟩ := List.getElem?_of_mem hchild
        obtain ⟨hlt, -⟩ := List.getElem?_eq_some_iff.1 hposition
        have := patience_of_front width (Nat.le_of_lt_succ hk) (Nat.le_of_lt hlt) hlonger
        exact .inr ⟨position, child, k, hposition, hleads, by omega⟩
      · exact .inl ⟨child, hfinished, k, hleads⟩
    | succ position =>
      have hbehind : (behind.toList.map Prod.snd)[position]? = some other := by
        simpa using hposition
      have := patience_of_behind width n position hlonger
      refine .inr ⟨position, other, n + 1, ?_, hleads, by omega⟩
      rw [hadvanced, List.getElem?_append_left (List.getElem?_eq_some_iff.1 hbehind).1, hbehind]

/-- Nothing waits any more, or no pass is left: the answer is finished. -/
theorem Due.exists_tuple (fitting : Fitting s root p) (h : Covering clauses none p) {width passes : Nat}
    (due : p.Due clauses answer width passes) (done : p.waiting = [] ∨ passes = 0) :
    ∃ solution ∈ p.base.finished, ∃ values,
      Progress.tuple? solution = some values ∧ (values == answer) = true := by
  rcases due with ⟨solution, hfinished, n, θ, hquery, -, -⟩ | ⟨position, solution, n, hposition, hleads, hpassed⟩
  · have hfit := fitting solution (List.mem_append_right _ hfinished)
    obtain ⟨query, goals, rfl⟩ := List.exists_cons_of_ne_nil hfit.nonempty
    obtain ⟨values, hvalues⟩ := Fact.isGround_iff_literals?.1
      (by simpa [isAnswer] using hfit.isAnswer (h.finished _ hfinished))
    refine ⟨_, hfinished, values, by simpa [Progress.tuple?] using hvalues, ?_⟩
    have := hquery query rfl
    rwa [Fact.literals?_eq_some_iff.1 hvalues, Fact.values_ofLiterals] at this
  · have hwaits := List.mem_of_getElem? hposition
    have hpos : 0 < n := hleads.pos (h.opened solution hwaits)
    obtain ⟨n, rfl⟩ : ∃ m, n = m + 1 := ⟨n - 1, by omega⟩
    rw [patience] at hpassed
    rcases done with hnil | rfl
    · simp [hnil] at hwaits
    · omega

/-! ### Runs -/

/-- A run on a complete program finishes a due answer, if it comes to its end or makes as many passes
as that takes. -/
theorem Covering.exists_tuple_of_run (complete : Complete s clauses root) {width : Nat}
    (few : ∀ key, (s.program.candidates key).length < width)
    (fitting : Fitting s root p) (h : Covering clauses none p) {wait : Nat}
    (due : p.Due clauses answer width wait)
    {deadline : Option Nat} {passes : Nat}
    (only : ∀ q, Visits s false deadline p q → ∀ solution behind,
      q.base.next? false = some (solution, behind) →
        ∀ g ∈ (pending solution).head?, IsOnlyAnswer clauses q.base.ledger g.fact)
    (done : (run s false deadline passes p).1 = true ∨ p.base.ledger.stats.iterations + wait ≤
      (run s false deadline passes p).2.base.ledger.stats.iterations) :
    ∃ solution ∈ (run s false deadline passes p).2.base.finished, ∃ values,
      Progress.tuple? solution = some values ∧ (values == answer) = true := by
  induction passes generalizing p wait with
  | zero =>
    have hwait : p.base.ledger.stats.iterations + wait ≤ p.base.ledger.stats.iterations := by
      simpa [run] using done
    exact due.exists_tuple fitting h (.inr (by omega))
  | succ passes ih =>
    cases hlate : p.base.isLate deadline with
    | true =>
      rw [run, if_pos hlate] at done ⊢
      have hwait : p.base.ledger.stats.iterations + wait ≤ p.base.ledger.stats.iterations := by
        simpa using done
      exact due.exists_tuple fitting h (.inr (by omega))
    | false =>
      cases hnext : p.base.next? false with
      | none =>
        rw [run, if_neg (by simp [hlate]), hnext]
        exact due.exists_tuple fitting h (.inl (waiting_eq_nil hnext))
      | some entry =>
        obtain ⟨solution, behind⟩ := entry
        have honly := only p (.refl p) solution behind hnext
        rw [run_succ_of_next hlate hnext] at done ⊢
        refine ih (fitting.advance complete hnext) (h.advance complete fitting hnext honly).1
          (due.advance complete few fitting h hnext honly)
          (fun q visits => only q (.pass hlate hnext visits)) (done.imp_right fun hle => ?_)
        have hmade := le_iterations_run s false deadline passes (p.advance s solution behind)
        rw [iterations_advance] at hmade ⊢
        omega

end Listing

end Horn.Search
