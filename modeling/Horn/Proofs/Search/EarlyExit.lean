import Horn.Proofs.Search.Passes
import Horn.Proofs.Search.Pending

/-!
Searches for one answer.

The loop is over once the first finished solution is older than all open ones. What is made later is
younger, so the passes that are still to come are at most as many as there are open solutions when the
first one is finished: `Listing.exists_moment`. Up to its end such a search goes through the states of
the search for all answers, so it finds the first of them: `Listing.run_early`.
-/

set_option autoImplicit false
set_option relaxedAutoImplicit false

namespace Horn.Search

/-- A pass takes in some children and then the first solution that is finished; this is the state at
that moment, before it is filed. -/
inductive FinishesFirst (s : Setting) (p : Progress) : Progress → Prop
  | intro {solution child : Solution} {behind : Queue (Nat × Solution)} {taken rest : List Solution}
      (next : p.next? true = some (solution, behind))
      (children : (expand s p.counted solution).1 = taken ++ child :: rest)
      (unfinished : (taken.foldl Progress.takeIn (p.popped s solution behind)).firstFinished = none)
      (finished : ((taken.foldl Progress.takeIn (p.popped s solution behind)).takeIn
        child).firstFinished ≠ none) :
      FinishesFirst s p (taken.foldl Progress.takeIn (p.popped s solution behind))

namespace Listing

variable {s : Setting} {p q : Listing} {child : Solution} {k : Nat}

/-! ### Numbers -/

/-- What taking in a solution does to the queue, the finished solutions and the numbers. -/
theorem base_takeIn_cases (p : Listing) (child : Solution) :
    ((p.takeIn child).base.opened = p.base.opened ∧
        (p.takeIn child).base.finished = p.base.finished ∧
        (p.takeIn child).base.firstFinished = p.base.firstFinished ∧
        (p.takeIn child).base.created = p.base.created) ∨
      (hasPending child = true ∧
        (p.takeIn child).base.opened = p.base.opened.push (p.base.created, child) ∧
        (p.takeIn child).base.finished = p.base.finished ∧
        (p.takeIn child).base.firstFinished = p.base.firstFinished ∧
        (p.takeIn child).base.created = p.base.created + 1) ∨
      (hasPending child = false ∧ (p.takeIn child).base.opened = p.base.opened ∧
        (p.takeIn child).base.finished = child :: p.base.finished ∧
        (p.takeIn child).base.firstFinished = (p.base.firstFinished <|> some p.base.created) ∧
        (p.takeIn child).base.created = p.base.created + 1) := by
  rw [takeIn]
  cases p.isKnown child with
  | true => exact .inl ⟨rfl, rfl, rfl, rfl⟩
  | false =>
    right
    simp only [Bool.false_eq_true, if_false, Progress.file]
    cases hasPending child with
    | true => exact .inl ⟨rfl, rfl, rfl, rfl, rfl⟩
    | false => exact .inr ⟨rfl, rfl, rfl, rfl, rfl⟩

/-- How many open solutions have a number up to this one. -/
def ahead (k : Nat) (p : Listing) : Nat :=
  p.base.opened.toList.countP fun entry => entry.1 ≤ k

theorem ahead_le (k : Nat) (p : Listing) : p.ahead k ≤ p.base.opened.toList.length :=
  List.countP_le_length

/-- The first finished solution has a number, and the next solution gets a greater one. -/
structure HasFirst (k : Nat) (p : Listing) : Prop where
  first : p.base.firstFinished = some k
  lt : k < p.base.created

/-- Once a solution is finished, no solution that is taken in is ahead of it. -/
theorem HasFirst.takeIn (h : HasFirst k p) (child : Solution) :
    HasFirst k (p.takeIn child) ∧ (p.takeIn child).ahead k = p.ahead k := by
  have hlt := h.lt
  rcases p.base_takeIn_cases child with
    ⟨hopened, -, hfirst, hcreated⟩ | ⟨-, hopened, -, hfirst, hcreated⟩ |
      ⟨-, hopened, -, hfirst, hcreated⟩
  · exact ⟨⟨hfirst.trans h.first, hcreated ▸ hlt⟩, by rw [ahead, ahead, hopened]⟩
  · refine ⟨⟨hfirst.trans h.first, by omega⟩, ?_⟩
    rw [ahead, ahead, hopened, Queue.toList_push, List.countP_append]
    simp
    omega
  · exact ⟨⟨by rw [hfirst, h.first]; rfl, by omega⟩, by rw [ahead, ahead, hopened]⟩

theorem HasFirst.foldl_takeIn (h : HasFirst k p) (children : List Solution) :
    HasFirst k (children.foldl Listing.takeIn p) ∧
      (children.foldl Listing.takeIn p).ahead k = p.ahead k := by
  induction children generalizing p with
  | nil => exact ⟨h, rfl⟩
  | cons child rest ih =>
    obtain ⟨hfirst, hahead⟩ := h.takeIn child
    obtain ⟨hfirst', hahead'⟩ := ih hfirst
    exact ⟨hfirst', hahead'.trans hahead⟩

theorem HasFirst.run (h : HasFirst k p) (s : Setting) (stopEarly : Bool) (passes : Nat) :
    HasFirst k (Listing.run s stopEarly none passes p).2 := by
  refine run_induction h (fun p solution behind h _ => ?_) passes
  exact advance_induction ⟨h.first, h.lt⟩ fun q child _ hq => (hq.takeIn child).1

/-- A search for one answer expands only what is ahead of the first finished solution. -/
theorem HasFirst.ahead_of_next? (h : HasFirst k p) {solution : Solution}
    {behind : Queue (Nat × Solution)} (next : p.base.next? true = some (solution, behind)) :
    p.ahead k = (p.popped s solution behind).ahead k + 1 := by
  rw [Progress.next?, h.first] at next
  split at next
  · cases next
  · rename_i number first rest hpop
    split at next
    · cases next
    · rename_i hle
      obtain ⟨rfl, rfl⟩ := Prod.mk.inj (Option.some.inj next)
      have hnumber : number ≤ k := by simpa using hle
      rw [ahead, Queue.toList_of_pop? hpop, List.countP_cons_of_pos (by simpa using hnumber)]
      rfl

/-- Once a solution is finished, a search for one answer ends after as many passes as there are open
solutions ahead of it. -/
theorem HasFirst.exists_ended (h : HasFirst k p) {passes : Nat} (enough : p.ahead k < passes) :
    ∃ q, Listing.run s true none passes p = (true, q) ∧
      q.base.ledger.stats.iterations ≤ p.base.ledger.stats.iterations + p.ahead k := by
  induction passes generalizing p with
  | zero => exact absurd enough (Nat.not_lt_zero _)
  | succ passes ih =>
    cases hnext : p.base.next? true with
    | none => exact ⟨p, run_of_last hnext (Nat.succ_ne_zero _), Nat.le_add_right _ _⟩
    | some entry =>
      have hpop := h.ahead_of_next? (s := s) hnext
      have hpopped : HasFirst k (p.popped s entry.1 entry.2) := ⟨h.first, h.lt⟩
      obtain ⟨hfirst, hahead⟩ := hpopped.foldl_takeIn (expand s p.counted entry.1).1
      rw [← advance_eq] at hfirst hahead
      obtain ⟨q, hrun, hle⟩ := ih hfirst (by omega)
      refine ⟨q, by rw [run_succ_of_next rfl hnext, hrun], ?_⟩
      rw [iterations_advance] at hle
      omega

/-! ### The first finished solution -/

/-- If a first solution is finished while children are taken in, it is one of them. -/
theorem exists_first_of_foldl {children : List Solution}
    (unfinished : p.base.firstFinished = none)
    (finished : (children.foldl takeIn p).base.firstFinished ≠ none) :
    ∃ taken child rest, children = taken ++ child :: rest ∧
      (taken.foldl takeIn p).base.firstFinished = none ∧
      ((taken.foldl takeIn p).takeIn child).base.firstFinished ≠ none := by
  induction children generalizing p with
  | nil => exact absurd unfinished finished
  | cons child rest ih =>
    by_cases hfirst : (p.takeIn child).base.firstFinished = none
    · obtain ⟨taken, child', rest', rfl, htaken, hchild⟩ := ih hfirst finished
      exact ⟨child :: taken, child', rest', rfl, htaken, hchild⟩
    · exact ⟨[], child, rest, rfl, unfinished, hfirst⟩

/-- The first finished solution is younger than all that were open before it was filed. -/
theorem hasFirst_takeIn (unfinished : p.base.firstFinished = none)
    (finished : (p.takeIn child).base.firstFinished ≠ none) :
    HasFirst p.base.created (p.takeIn child) ∧
      (p.takeIn child).ahead p.base.created ≤ p.base.opened.toList.length := by
  rcases p.base_takeIn_cases child with
    ⟨-, -, hfirst, -⟩ | ⟨-, -, -, hfirst, -⟩ | ⟨-, hopened, -, hfirst, hcreated⟩
  · exact absurd (hfirst.trans unfinished) finished
  · exact absurd (hfirst.trans unfinished) finished
  · refine ⟨⟨by rw [hfirst, unfinished]; rfl, by omega⟩, ?_⟩
    rw [← hopened]
    exact ahead_le _ _

theorem length_opened_foldl_le (children : List Solution) (p : Listing) :
    (children.foldl takeIn p).base.opened.toList.length ≤
      p.base.opened.toList.length + children.length := by
  obtain ⟨new, hnew, hsublist⟩ := exists_waiting_foldl children p
  have hlength := congrArg List.length hnew
  rw [List.length_append, waiting, waiting, List.length_map, List.length_map] at hlength
  have := hsublist.length_le
  omega

/-- If a first solution is finished while children are taken in, what is ahead of it then was open before
or is another child. -/
theorem exists_hasFirst_foldl {children : List Solution}
    (unfinished : p.base.firstFinished = none)
    (finished : (children.foldl takeIn p).base.firstFinished ≠ none) :
    ∃ k, HasFirst k (children.foldl takeIn p) ∧
      (children.foldl takeIn p).ahead k + 1 ≤ p.base.opened.toList.length + children.length := by
  obtain ⟨taken, child, rest, rfl, htaken, hchild⟩ := exists_first_of_foldl unfinished finished
  obtain ⟨hfirst, hahead⟩ := hasFirst_takeIn htaken hchild
  obtain ⟨hrest, hahead'⟩ := hfirst.foldl_takeIn rest
  refine ⟨(taken.foldl takeIn p).base.created, ?_, ?_⟩
  · rw [List.foldl_append, List.foldl_cons]
    exact hrest
  · rw [List.foldl_append, List.foldl_cons, hahead', List.length_append, List.length_cons]
    have := length_opened_foldl_le taken p
    omega

/-- If a run has finished a first solution, it did so in some pass. -/
theorem exists_first_pass (unfinished : p.base.firstFinished = none) {stopEarly : Bool} {passes : Nat}
    (finished : (run s stopEarly none passes p).2.base.firstFinished ≠ none) :
    ∃ before < passes, ∃ solution behind,
      (run s stopEarly none before p).2.base.firstFinished = none ∧
        (run s stopEarly none before p).2.base.next? stopEarly = some (solution, behind) ∧
        run s stopEarly none (before + 1) p =
          (false, (run s stopEarly none before p).2.advance s solution behind) ∧
        ((run s stopEarly none before p).2.advance s solution behind).base.firstFinished ≠ none := by
  induction passes with
  | zero => exact absurd unfinished finished
  | succ passes ih =>
    by_cases hbefore : (run s stopEarly none passes p).2.base.firstFinished = none
    · have hgoing : (run s stopEarly none (passes + 1) p).1 = false := by
        refine Bool.eq_false_iff.2 fun ended => finished ?_
        rw [run_succ_of_ended ended]
        exact hbefore
      obtain ⟨solution, behind, hnext, hrun⟩ := run_succ_of_going hgoing
      exact ⟨passes, Nat.lt_succ_self _, solution, behind, hbefore, hnext, Prod.ext hgoing hrun,
        hrun ▸ finished⟩
    · obtain ⟨before, hlt, hpass⟩ := ih hbefore
      exact ⟨before, Nat.lt_succ_of_lt hlt, hpass⟩

/-- If a search for one answer has finished a first solution, it did so at some moment, and from then on
it expands no more solutions than were open at that moment, and ends. -/
theorem exists_moment (unfinished : p.base.firstFinished = none) {passes : Nat}
    (finished : (run s true none passes p).2.base.firstFinished ≠ none) :
    ∃ before < passes, ∃ moment : Listing,
      FinishesFirst s (run s true none before p).2.progress moment.progress ∧
        ∀ more, before + moment.base.opened.toList.length + 2 ≤ more →
          ∃ q, run s true none more p = (true, q) ∧
            q.base.ledger.stats.iterations ≤
              (run s true none before p).2.base.ledger.stats.iterations + 1 +
                moment.base.opened.toList.length := by
  obtain ⟨before, hlt, solution, behind, hbefore, hnext, hrun, hadvanced⟩ :=
    exists_first_pass unfinished finished
  refine ⟨before, hlt, ?_⟩
  generalize (run s true none before p).2 = p' at hbefore hnext hrun hadvanced ⊢
  rw [advance_eq] at hadvanced
  obtain ⟨taken, child, rest, hchildren, htaken, hchild⟩ :=
    exists_first_of_foldl (p := p'.popped s solution behind) hbefore hadvanced
  have hmoment : (taken.foldl takeIn (p'.popped s solution behind)).progress =
      taken.foldl Progress.takeIn (p'.progress.popped s solution behind) :=
    progress_foldl_takeIn _ _
  have hadvance : rest.foldl takeIn ((taken.foldl takeIn (p'.popped s solution behind)).takeIn child) =
      p'.advance s solution behind := by
    rw [advance_eq, hchildren, List.foldl_append, List.foldl_cons]
  generalize taken.foldl takeIn (p'.popped s solution behind) = moment at *
  refine ⟨moment, ?_, fun more hmore => ?_⟩
  · have hfiled : (moment.takeIn child).progress = moment.progress.takeIn child :=
      progress_foldl_takeIn [child] moment
    rw [hmoment] at hfiled ⊢
    refine FinishesFirst.intro (p := p'.progress) hnext hchildren ?_ ?_
    · rw [← hmoment]
      exact htaken
    · rw [← hfiled]
      exact hchild
  · -- The children behind the one that is finished are younger, so nothing more gets ahead of it.
    obtain ⟨hfirst, hahead⟩ := hasFirst_takeIn htaken hchild
    obtain ⟨hrest, hahead'⟩ := hfirst.foldl_takeIn rest
    rw [hadvance] at hrest hahead'
    obtain ⟨others, rfl⟩ : ∃ others, more = before + 1 + others := ⟨more - (before + 1), by omega⟩
    have hothers : (p'.advance s solution behind).ahead moment.base.created < others := by omega
    obtain ⟨q, hended, hle⟩ := hrest.exists_ended (s := s) hothers
    refine ⟨q, by rw [run_add, hrun]; exact hended, ?_⟩
    rw [iterations_advance] at hle
    omega

/-! ### The search for all answers -/

/-- Every finished solution has a tuple, and there is one if a first one is noted. -/
structure Answered (p : Listing) : Prop where
  nonempty : p.base.firstFinished ≠ none → p.base.finished ≠ []
  tuples : ∀ a ∈ p.base.finished, ∃ values, Progress.tuple? a = some values

theorem answered_start (l : Ledger) (root : Fact) : Answered (start l root) :=
  ⟨fun h => absurd rfl h, by simp [start, Progress.start]⟩

theorem Answered.takeIn (h : Answered p) (kept : hasPending child = true ∨ isAnswer child = true) :
    Answered (p.takeIn child) := by
  rcases p.base_takeIn_cases child with
    ⟨-, hfinished, hfirst, -⟩ | ⟨-, -, hfinished, hfirst, -⟩ | ⟨hclosed, -, hfinished, -, -⟩
  · exact ⟨fun hnone => hfinished ▸ h.nonempty (hfirst ▸ hnone), hfinished ▸ h.tuples⟩
  · exact ⟨fun hnone => hfinished ▸ h.nonempty (hfirst ▸ hnone), hfinished ▸ h.tuples⟩
  · refine ⟨fun _ => by simp [hfinished], ?_⟩
    rw [hfinished]
    refine List.forall_mem_cons.2 ⟨?_, h.tuples⟩
    have hanswer : isAnswer child = true := kept.resolve_left (by simp [hclosed])
    obtain ⟨query, hquery, hground⟩ := (Option.any_eq_true _ _).1 hanswer
    obtain ⟨values, hvalues⟩ := Fact.isGround_iff_literals?.1 hground
    exact ⟨values, by rw [Progress.tuple?, hquery, Option.bind_some, hvalues]⟩

theorem Answered.run (h : Answered p) (s : Setting) (stopEarly : Bool) (passes : Nat) :
    Answered (Listing.run s stopEarly none passes p).2 := by
  refine run_induction h (fun p solution behind h _ => ?_) passes
  exact advance_induction ⟨h.nonempty, h.tuples⟩
    fun q child hchild hq => hq.takeIn (kept_of_mem_expand hchild)

private theorem finished_suffix_takeIn (p : Listing) (child : Solution) :
    p.base.finished <:+ (p.takeIn child).base.finished := by
  rcases p.base_takeIn_cases child with ⟨-, heq, -⟩ | ⟨-, -, heq, -⟩ | ⟨-, -, heq, -⟩
  · exact heq ▸ List.suffix_refl _
  · exact heq ▸ List.suffix_refl _
  · exact heq ▸ List.suffix_cons _ _

/-- What is finished stays finished, in its order. -/
theorem finished_suffix_run (s : Setting) (stopEarly : Bool) (passes : Nat) (p : Listing) :
    p.base.finished <:+ (run s stopEarly none passes p).2.base.finished := by
  let P (q : Listing) : Prop := p.base.finished <:+ q.base.finished
  refine run_induction (P := P) (List.suffix_refl _) (fun q solution behind h _ => ?_) passes
  exact advance_induction (P := P) h
    fun q child _ hq => List.IsSuffix.trans hq (finished_suffix_takeIn q child)

/-- If a search for all answers ends, the search for one ends in one of its states: in the last one, or
in one in which a solution is finished. -/
theorem run_early (s : Setting) {passes : Nat} (ended : run s false none passes p = (true, q)) :
    ∃ q', run s true none passes p = (true, q') ∧
      q'.base.ledger.stats.iterations ≤ q.base.ledger.stats.iterations ∧
      (q' = q ∨ q'.base.firstFinished ≠ none ∧ q'.base.finished <:+ q.base.finished) := by
  induction passes generalizing p with
  | zero => simp [run] at ended
  | succ passes ih =>
    have hlater := le_iterations_run s false none (passes + 1) p
    have hsuffix := finished_suffix_run s false (passes + 1) p
    rw [ended] at hlater hsuffix
    have hpop : p.base.next? true = p.base.next? false ∨
        p.base.next? true = none ∧ p.base.firstFinished ≠ none := by
      rw [Progress.next?, Progress.next?]
      cases p.base.opened.pop? with
      | none => exact .inl rfl
      | some entry =>
        simp only [Bool.true_and, Bool.false_and, Bool.false_eq_true, if_false]
        split
        · rename_i hany
          exact .inr ⟨rfl, by rintro heq; simp [heq] at hany⟩
        · exact .inl rfl
    -- Both searches take the same solution until the one for one answer is over.
    rcases hpop with hsame | ⟨hlast, hfirst⟩
    · cases hnext : p.base.next? false with
      | none =>
        rw [run_of_last hnext (Nat.succ_ne_zero _)] at ended
        obtain ⟨-, rfl⟩ := Prod.mk.inj ended
        exact ⟨p, run_of_last (hsame.trans hnext) (Nat.succ_ne_zero _), Nat.le_refl _, .inl rfl⟩
      | some entry =>
        rw [run_succ_of_next rfl hnext] at ended
        rw [run_succ_of_next rfl (hsame.trans hnext)]
        exact ih ended
    · exact ⟨p, run_of_last hlast (Nat.succ_ne_zero _), hlater, .inr ⟨hfirst, hsuffix⟩⟩

/-- The search for one answer lists the first answer of all. -/
theorem answers_early (answered : Answered q) {q' : Listing} (answered' : Answered q')
    (early : q' = q ∨ q'.base.firstFinished ≠ none ∧ q'.base.finished <:+ q.base.finished) :
    q'.answers true = (q.answers false).take 1 := by
  rcases early with rfl | ⟨hfirst, more, hmore⟩
  · rfl
  · obtain ⟨first, rest, hrest⟩ := List.exists_cons_of_ne_nil
      (mt List.reverse_eq_nil_iff.1 (answered'.nonempty hfirst))
    have hmem : first ∈ q'.base.finished := by
      rw [← List.mem_reverse, hrest]
      exact List.mem_cons_self
    obtain ⟨values, hvalues⟩ := answered'.tuples first hmem
    rw [answers, answers, ← hmore, List.reverse_append, hrest]
    simp [hvalues, List.eraseDups_cons]

end Listing

end Horn.Search
