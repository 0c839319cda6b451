import Horn.Proofs.Distinct
import Horn.Proofs.Search.Saturation

/-!
Undefined predicates in a search.

A goal gets into a solution with the body of a clause, and only if every goal of that body is a built-in
or has clauses. So a clause with another goal in its body makes no child (`child?_eq_none`), and in a run
every goal of every solution that is open or finished can be resolved: `Listing.isResolvable_run`. The
undefined predicates that a run notes are those that its attempts met, each once and in the order in which
they were met: `Listing.undefined_run`.
-/

set_option autoImplicit false
set_option relaxedAutoImplicit false

namespace Horn.Search

variable {s : Setting} {l : Ledger} {solution child : Solution}

theorem Setting.isDefined_substitute (s : Setting) (b : Bindings) (f : Fact) :
    s.isDefined (b.substitute f) = s.isDefined f := by
  simp [Setting.isDefined, Setting.isBuiltin, Fact.key]

/-! ### Attempts -/

section Attempts

variable {memoized : String → Bool} {position : Nat} {goal head : Fact} {body : List Fact}

/-- A clause with an undefined goal in its body makes no child, whatever it is tried for. -/
theorem child?_eq_none {f : Fact} (mem : f ∈ body) (undefined : s.isDefined f = false) :
    (attempt s memoized solution position goal head body).child? = none := by
  cases h : attempt s memoized solution position goal head body with
  | rejected => rfl
  | undefined key => rfl
  | discharged proven child =>
    obtain ⟨b, -, -, hdefined, -⟩ := attempt_eq_discharged h
    have hf := hdefined f mem
    rw [s.isDefined_substitute, undefined] at hf
    cases hf

/-- If its head unifies and its conditions hold, a clause with undefined goals in its body is given up
for one of them. -/
theorem exists_attempt_eq_undefined {b : Bindings} (unified : unify head goal = some b)
    (respected : body.all b.respects = true) {f : Fact} (mem : f ∈ body)
    (undefined : s.isDefined f = false) :
    ∃ f ∈ body, s.isDefined f = false ∧
      attempt s memoized solution position goal head body = .undefined f.key := by
  have hfound : ((body.map b.substitute).find? fun f => !s.isDefined f).isSome = true := by
    rw [List.find?_isSome]
    exact ⟨b.substitute f, List.mem_map_of_mem mem, by simp [s.isDefined_substitute, undefined]⟩
  obtain ⟨found, hfind⟩ := Option.isSome_iff_exists.1 hfound
  obtain ⟨f', hf', rfl⟩ := List.mem_map.1 (List.mem_of_find?_eq_some hfind)
  have hundefined := List.find?_some hfind
  rw [s.isDefined_substitute, Bool.not_eq_true'] at hundefined
  refine ⟨f', hf', hundefined, ?_⟩
  have hkey : (b.substitute f').key = f'.key := by
    simp [Fact.key]
  rw [attempt, unified]
  simp only [derive, respected, if_true, hfind, hkey]

/-- A clause is given up only for a goal of its body that is undefined. -/
theorem exists_of_attempt_eq_undefined {key : String}
    (h : attempt s memoized solution position goal head body = .undefined key) :
    ∃ f ∈ body, s.isDefined f = false ∧ f.key = key := by
  rw [attempt] at h
  split at h
  · cases h
  · rename_i b _
    rw [derive] at h
    split at h
    · simp only at h
      split at h
      · rename_i found hfind
        obtain ⟨f, hf, rfl⟩ := List.mem_map.1 (List.mem_of_find?_eq_some hfind)
        have hundefined := List.find?_some hfind
        rw [s.isDefined_substitute, Bool.not_eq_true'] at hundefined
        refine ⟨f, hf, hundefined, ?_⟩
        rw [← Attempt.undefined.inj h]
        simp [Fact.key]
      · split at h <;> cases h
    · cases h

end Attempts

/-! ### Goals -/

/-- Every goal is a built-in or has a clause. -/
def IsResolvable (s : Setting) (solution : Solution) : Prop :=
  ∀ g ∈ solution, s.isDefined g.fact = true

theorem IsResolvable.expand (h : IsResolvable s solution) (mem : child ∈ (expand s l solution).1) :
    IsResolvable s child := by
  obtain ⟨before, g, behind, head, body, proven, rfl, -, -, hattempt⟩ :=
    exists_attempt_of_mem_expand mem
  obtain ⟨b, -, -, hbody, -, -, hchild⟩ := attempt_eq_discharged hattempt
  obtain ⟨rfl, -⟩ := hchild child rfl
  intro d hd
  rcases mem_discharge ((compact_fst _ _).2.1.subset hd) with ⟨old, hold, heq⟩ | hnew
  · rw [heq, s.isDefined_substitute]
    exact h old hold
  · obtain ⟨f, hf, heq⟩ := List.mem_map.1 hnew
    rw [← heq]
    exact hbody f hf

/-! ### What is noted -/

/-- The key of the undefined predicate for which an attempt is given up. -/
def Attempt.undefined? : Attempt → Option String
  | .undefined key => some key
  | _ => none

/-- The undefined predicates that an expansion meets, once for every clause that is given up. -/
def met (s : Setting) (l : Ledger) (solution : Solution) : List String :=
  (tried s l solution).filterMap Attempt.undefined?

/-- The undefined predicates that a run meets, pass by pass. -/
def metBy (s : Setting) (stopEarly : Bool) (deadline : Option Nat) :
    (passes : Nat) → Progress → List String
  | 0, _ => []
  | passes + 1, p =>
    if p.isLate deadline then []
    else
      match p.next? stopEarly with
      | none => []
      | some (solution, behind) =>
        met s p.counted solution ++
          metBy s stopEarly deadline passes (p.advance s solution behind)

theorem Stats.undefined_report {stats : Stats} {noted : List String}
    (h : stats.undefined = distinct noted) (key : String) :
    (stats.report key).undefined = distinct (noted ++ [key]) := by
  have hmem : (noted.any (key == ·)) = true ↔ key ∈ stats.undefined := by
    have hsame : (noted.any (key == ·)) = true ↔ key ∈ noted := by simp
    rw [h, hsame]
    constructor
    · intro hkey
      obtain ⟨other, hother, heq⟩ := exists_mem_distinct hkey
      rwa [← eq_of_beq heq]
    · exact mem_of_mem_distinct
  rw [distinct_append_singleton, report]
  by_cases hkey : key ∈ stats.undefined
  · rw [if_pos hkey, if_pos (hmem.2 hkey), h]
  · rw [if_neg hkey, if_neg (mt hmem.1 hkey), h]

private theorem undefined_enterAll {noted : List String} (h : l.stats.undefined = distinct noted)
    (as : List Attempt) :
    (l.enterAll as).2.stats.undefined = distinct (noted ++ as.filterMap Attempt.undefined?) := by
  change (as.foldl Ledger.enter l).stats.undefined = _
  induction as generalizing l noted with
  | nil => simpa using h
  | cons a rest ih =>
    rw [List.foldl_cons]
    cases a with
    | rejected => exact ih h
    | discharged proven child => exact ih (l := l.enter (.discharged proven child)) h
    | undefined key =>
      rw [ih (l := l.enter (.undefined key)) (Stats.undefined_report h key),
        List.append_assoc]
      rfl

/-- An expansion notes what it meets, unless it was noted before. -/
theorem undefined_expand {noted : List String} (h : l.stats.undefined = distinct noted)
    (solution : Solution) :
    (expand s l solution).2.stats.undefined = distinct (noted ++ met s l solution) := by
  obtain ⟨start, hstart, hexpand⟩ := expand_eq_enterAll s l solution
  rw [hexpand]
  exact undefined_enterAll (hstart.trans h) _

namespace Listing

variable {stopEarly : Bool} {deadline : Option Nat} {p : Listing}

/-- In a run every goal of every solution that stands is a built-in or has a clause. -/
theorem isResolvable_run (start : ∀ a ∈ p.standing, IsResolvable s a) (passes : Nat) :
    ∀ a ∈ (run s stopEarly deadline passes p).2.standing, IsResolvable s a := by
  refine run_induction (P := fun p => ∀ a ∈ p.standing, IsResolvable s a) start ?_ passes
  intro p solution behind h next a ha
  have hwaiting := waiting_of_next? next
  have hsolution : IsResolvable s solution :=
    h solution (List.mem_append_left _ (by simp [hwaiting]))
  rw [advance_eq] at ha
  rcases mem_standing_foldl ha with hchild | hold
  · exact hsolution.expand hchild
  · refine h a ?_
    rw [standing, hwaiting]
    rcases List.mem_append.1 hold with hold | hold
    · exact List.mem_append_left _ (List.mem_cons_of_mem _ hold)
    · exact List.mem_append_right _ hold

/-- A run notes what it meets, each predicate once and in the order in which they were met. -/
theorem undefined_run {noted : List String} (h : p.undefined = distinct noted) (passes : Nat) :
    (run s stopEarly deadline passes p).2.undefined =
      distinct (noted ++ metBy s stopEarly deadline passes p.progress) := by
  induction passes generalizing p noted with
  | zero => simpa [run, metBy] using h
  | succ passes ih =>
    have hlate : p.progress.isLate deadline = p.base.isLate deadline := rfl
    have hnext : p.progress.next? stopEarly = p.base.next? stopEarly := rfl
    rw [run, metBy, hlate, hnext]
    cases p.base.isLate deadline with
    | true => simpa using h
    | false =>
      cases p.base.next? stopEarly with
      | none => simpa using h
      | some entry =>
        have hpass : (p.advance s entry.1 entry.2).undefined =
            distinct (noted ++ met s p.counted entry.1) := by
          rw [undefined_advance]
          exact undefined_expand (l := p.counted) h entry.1
        simp only [Bool.false_eq_true, if_false]
        rw [ih hpass, progress_advance, List.append_assoc]
        rfl

end Listing

/-- Everything that a run meets is undefined. -/
theorem exists_of_mem_met {key : String} (h : key ∈ met s l solution) :
    ∃ f : Fact, s.isDefined f = false ∧ f.key = key := by
  obtain ⟨a, ha, hkey⟩ := List.mem_filterMap.1 h
  obtain ⟨choice, g, c, -, -, -, rfl⟩ := mem_tried.1 ha
  cases hattempt : attempt s l.memo.isEnabled solution choice.position g.fact c.1 c.2 with
  | rejected => simp [hattempt, Attempt.undefined?] at hkey
  | discharged proven child => simp [hattempt, Attempt.undefined?] at hkey
  | undefined other =>
    rw [hattempt] at hkey
    obtain rfl : other = key := Option.some.inj hkey
    obtain ⟨f, -, hundefined, rfl⟩ := exists_of_attempt_eq_undefined hattempt
    exact ⟨f, hundefined, rfl⟩

theorem exists_of_mem_metBy {stopEarly : Bool} {deadline : Option Nat} {passes : Nat} {p : Progress}
    {key : String} (h : key ∈ metBy s stopEarly deadline passes p) :
    ∃ f : Fact, s.isDefined f = false ∧ f.key = key := by
  induction passes generalizing p with
  | zero => simp [metBy] at h
  | succ passes ih =>
    rw [metBy] at h
    split at h
    · simp at h
    · split at h
      · simp at h
      · rcases List.mem_append.1 h with hmet | hlater
        · exact exists_of_mem_met hmet
        · exact ih hlater

end Horn.Search
