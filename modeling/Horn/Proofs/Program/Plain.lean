import Mathlib.Data.List.Nodup
import Horn.Proofs.Program.Uniqueness

/-!
A program without its index.

A plain list of clauses that is scanned from its start stores the same clauses as a program, and does to
them what the program does: `refines_run`. The program finds a clause through its index, which lists the
positions of each key in order (`Index.isExact_ofClauses`); the list compares clause after clause. Both
find the same one, since clauses that recognize each other have one key (`IsIndexed.position?_eq`).
-/

set_option autoImplicit false
set_option relaxedAutoImplicit false

namespace Horn

/-! ### Exact indices -/

namespace Index

/-- An index has one entry for each key of a clause list, which holds the positions of the clauses with
that key in ascending order, and no other entries. -/
structure IsExact (index : Index) (clauses : List Clause) : Prop where
  distinct : (index.entries.map Prod.fst).Nodup
  nonempty : ∀ entry ∈ index.entries, entry.2 ≠ []
  ascending : ∀ key, (index.positions key).Pairwise (· < ·)
  mem_iff : ∀ key i, i ∈ index.positions key ↔ ∃ c, clauses[i]? = some c ∧ c.key = key

private theorem mem_keys_insertEntry {key other : String} {position : Nat}
    {entries : List (String × List Nat)}
    (h : other ∈ (insertEntry key position entries).map Prod.fst) :
    other = key ∨ other ∈ entries.map Prod.fst := by
  induction entries with
  | nil => exact .inl (List.mem_singleton.1 h)
  | cons entry rest ih =>
    obtain ⟨name, places⟩ := entry
    rw [insertEntry] at h
    split at h
    · exact .inr h
    · rcases List.mem_cons.1 h with rfl | hrest
      · exact .inr List.mem_cons_self
      · exact (ih hrest).imp_right (List.mem_cons_of_mem _)

private theorem nodup_insertEntry {key : String} {position : Nat} {entries : List (String × List Nat)}
    (h : (entries.map Prod.fst).Nodup) : ((insertEntry key position entries).map Prod.fst).Nodup := by
  induction entries with
  | nil => exact List.nodup_singleton key
  | cons entry rest ih =>
    obtain ⟨name, places⟩ := entry
    obtain ⟨hfresh, hrest⟩ := List.nodup_cons.1 h
    rw [insertEntry]
    split
    · exact h
    next hother =>
      refine List.nodup_cons.2 ⟨fun hmem => ?_, ih hrest⟩
      rcases mem_keys_insertEntry hmem with heq | hmem
      · exact hother heq
      · exact hfresh hmem

private theorem nonempty_insertEntry {key : String} {position : Nat}
    {entries : List (String × List Nat)} (h : ∀ entry ∈ entries, entry.2 ≠ []) :
    ∀ entry ∈ insertEntry key position entries, entry.2 ≠ [] := by
  induction entries with
  | nil =>
    intro entry hentry
    obtain rfl := List.mem_singleton.1 hentry
    exact List.cons_ne_nil _ _
  | cons first rest ih =>
    obtain ⟨name, places⟩ := first
    rw [insertEntry]
    have hrest : ∀ entry ∈ rest, entry.2 ≠ [] := fun entry hentry => h entry (.tail _ hentry)
    split
    · exact List.forall_mem_cons.2 ⟨by simp, hrest⟩
    · exact List.forall_mem_cons.2 ⟨h _ List.mem_cons_self, ih hrest⟩

private theorem entries_extend (index : Index) (start : Nat) (clauses : List Clause)
    (distinct : (index.entries.map Prod.fst).Nodup) (nonempty : ∀ entry ∈ index.entries, entry.2 ≠ []) :
    ((index.extend start clauses).entries.map Prod.fst).Nodup ∧
      ∀ entry ∈ (index.extend start clauses).entries, entry.2 ≠ [] := by
  induction clauses generalizing index start with
  | nil => exact ⟨distinct, nonempty⟩
  | cons c rest ih => exact ih _ _ (nodup_insertEntry distinct) (nonempty_insertEntry nonempty)

/-- The positions of a key are those of its clauses among all positions, so they ascend. -/
private theorem pairwise_positions (clauses : List Clause) (key : String) :
    ((ofClauses clauses).positions key).Pairwise (· < ·) := by
  have hplaces : (clauses.zipIdx.map Prod.snd).Pairwise (· < ·) := by
    rw [List.zipIdx_map_snd]
    exact List.pairwise_lt_range'
  rw [positions_ofClauses]
  refine List.Pairwise.filterMap _ ?_ (List.pairwise_map.1 hplaces)
  intro a b hlt i hi j hj
  obtain ⟨-, rfl⟩ : a.1.key = key ∧ a.2 = i := by simpa using hi
  obtain ⟨-, rfl⟩ : b.1.key = key ∧ b.2 = j := by simpa using hj
  exact hlt

theorem isExact_ofClauses (clauses : List Clause) : (ofClauses clauses).IsExact clauses := by
  obtain ⟨distinct, nonempty⟩ := entries_extend empty 0 clauses List.nodup_nil fun _ hentry =>
    absurd hentry List.not_mem_nil
  refine ⟨distinct, nonempty, pairwise_positions clauses, fun key i => ?_⟩
  rw [positions_ofClauses, List.mem_filterMap]
  constructor
  · rintro ⟨⟨c, j⟩, hmem, hplace⟩
    obtain ⟨hkey, rfl⟩ : c.key = key ∧ j = i := by simpa using hplace
    exact ⟨c, List.mem_zipIdx_iff_getElem?.1 hmem, hkey⟩
  · rintro ⟨c, hc, hkey⟩
    exact ⟨(c, i), List.mem_zipIdx_iff_getElem?.2 hc, if_pos hkey⟩

end Index

namespace Program

/-! ### Changes -/

/-- What can be done to a store of clauses. -/
inductive Change where
  | assert (head : Fact) (body : List Fact)
  | retract (head : Fact) (body : List Fact)
  | retractAt (position : Nat)
  | pushFront (c : Clause)
  | popFront

/-- What a change reports. -/
inductive Outcome where
  | asserted (outcome : Assertion)
  | retracted (outcome : Retraction)
  | erased (c : Clause)
  | refused (cause : Refusal)
  | pushed
  | popped (first : Option Clause)

/-- A change that may be refused, and then leaves the store as it is. -/
def attempt {σ α : Type} (store : σ) (report : α → Outcome) : Except Refusal (σ × α) → σ × Outcome
  | .ok (after, result) => (after, report result)
  | .error cause => (store, .refused cause)

/-- A change of a program. -/
def change (p : Program) : Change → Program × Outcome
  | .assert head body => (p.assert head body).map id .asserted
  | .retract head body => attempt p .retracted (p.retract head body)
  | .retractAt position => attempt p .erased (p.retractAt position)
  | .pushFront c => (p.pushFront c, .pushed)
  | .popFront => (p.popFront, .popped p.clauses[0]?)

/-- The store after some changes, and what they report one after the other. -/
def run {σ : Type} (change : σ → Change → σ × Outcome) (store : σ) : List Change → σ × List Outcome
  | [] => (store, [])
  | next :: rest =>
    let done := change store next
    (run change done.1 rest).map id (done.2 :: ·)

end Program

/-! ### Clause lists without an index -/

namespace Plain

open Program (Change Outcome attempt)

/-- Counts the first clause that the declaration states once more, or puts the declared one behind all. -/
def assert (head : Fact) (body : List Fact) : List Clause → List Clause × Assertion
  | [] => ([.once head body], .inserted)
  | c :: rest =>
    if c.isDeclaredBy head body then ({ c with count := c.count + 1 } :: rest, .duplicate (c.count + 1))
    else (assert head body rest).map (c :: ·) id

/-- Takes one assertion off the first clause that the declaration states, and leaves out this clause with
the last one. -/
def retract (head : Fact) (body : List Fact) : List Clause → Except Refusal (List Clause × Retraction)
  | [] => .error .clauseNotFound
  | c :: rest =>
    if c.isDeclaredBy head body then
      if c.count ≤ 1 then .ok (rest, .removed)
      else .ok ({ c with count := c.count - 1 } :: rest, .decremented (c.count - 1))
    else (retract head body rest).map (Prod.map (c :: ·) id)

def retractAt (clauses : List Clause) (position : Nat) : Except Refusal (List Clause × Clause) :=
  match clauses[position]? with
  | none => .error (.indexOutOfBounds position clauses.length)
  | some c => .ok (clauses.eraseIdx position, c)

/-- A change of a clause list. -/
def change (clauses : List Clause) : Change → List Clause × Outcome
  | .assert head body => (assert head body clauses).map id .asserted
  | .retract head body => attempt clauses .retracted (retract head body clauses)
  | .retractAt position => attempt clauses .erased (retractAt clauses position)
  | .pushFront c => (c :: clauses, .pushed)
  | .popFront => (clauses.tail, .popped clauses.head?)

/-- Where the scan of an assertion ends. -/
theorem assert_eq (head : Fact) (body : List Fact) (clauses : List Clause) :
    assert head body clauses =
      match clauses.findIdx? (·.isDeclaredBy head body) with
      | none => (clauses ++ [.once head body], .inserted)
      | some i => (clauses.modify i fun c => { c with count := c.count + 1 },
          .duplicate ((clauses[i]?.map fun c => c.count + 1).getD 0)) := by
  induction clauses with
  | nil => rfl
  | cons c rest ih =>
    rw [assert, List.findIdx?_cons]
    cases c.isDeclaredBy head body with
    | true => simp
    | false =>
      rw [if_neg Bool.false_ne_true, if_neg Bool.false_ne_true, ih]
      cases rest.findIdx? (·.isDeclaredBy head body) <;> simp

/-- Where the scan of a retraction ends. -/
theorem retract_eq (head : Fact) (body : List Fact) (clauses : List Clause) :
    retract head body clauses =
      match clauses.findIdx? (·.isDeclaredBy head body) with
      | none => .error .clauseNotFound
      | some i =>
        match (clauses[i]?.map Clause.count).getD 0 - 1 with
        | 0 => .ok (clauses.eraseIdx i, .removed)
        | count + 1 => .ok (clauses.modify i fun c => { c with count := count + 1 },
            .decremented (count + 1)) := by
  induction clauses with
  | nil => rfl
  | cons c rest ih =>
    rw [retract, List.findIdx?_cons]
    cases c.isDeclaredBy head body with
    | true =>
      rw [if_pos rfl, if_pos rfl]
      cases hcount : c.count - 1 with
      | zero => simp [hcount, Nat.sub_eq_zero_iff_le.1 hcount]
      | succ count =>
        have hmany : ¬ c.count ≤ 1 := by omega
        simp [hcount, hmany]
    | false =>
      rw [if_neg Bool.false_ne_true, if_neg Bool.false_ne_true, ih]
      cases rest.findIdx? (·.isDeclaredBy head body) with
      | none => rfl
      | some i =>
        simp only [Option.map_some, List.getElem?_cons_succ]
        split <;> rfl

end Plain

namespace Program

variable {p : Program}

/-- A program and a plain list hold the same clauses, and the index of the program finds those that a
filter leaves of the list. -/
structure Refines (p : Program) (clauses : List Clause) : Prop where
  clauses_eq : p.clauses.toList = clauses
  exact : p.index.IsExact clauses
  candidates_eq : ∀ key, p.candidates key = clauses.filter fun c => c.key = key
  defines_iff : ∀ key, p.defines key = true ↔ (clauses.filter fun c => c.key = key) ≠ []

theorem IsIndexed.refines (h : p.IsIndexed) : p.Refines p.clauses.toList := by
  have hindex : p.index = .ofClauses p.clauses.toList := h
  have heq := h.eq_ofClauses
  refine ⟨rfl, hindex ▸ Index.isExact_ofClauses _, fun key => ?_, fun key => ?_⟩
  · rw [heq]
    exact candidates_ofClauses p.clauses key
  · rw [heq, defines_ofClauses, ne_eq, List.filter_eq_nil_iff]
    simp [ofClauses]

/-- A change keeps the index in step with the clauses. -/
theorem IsIndexed.change (h : p.IsIndexed) (next : Change) : (p.change next).1.IsIndexed := by
  cases next with
  | assert head body => exact h.assert head body
  | retract head body =>
    rw [Program.change]
    cases hdone : p.retract head body with
    | ok result =>
      obtain ⟨q, outcome⟩ := result
      exact h.retract hdone
    | error _ => exact h
  | retractAt position =>
    rw [Program.change]
    cases hdone : p.retractAt position with
    | ok result =>
      obtain ⟨q, c⟩ := result
      exact isIndexed_of_retractAt hdone
    | error _ => exact h
  | pushFront c => exact isIndexed_ofClauses _
  | popFront => exact isIndexed_ofClauses _

theorem IsIndexed.run (h : p.IsIndexed) (changes : List Change) :
    (run Program.change p changes).1.IsIndexed := by
  induction changes generalizing p with
  | nil => exact h
  | cons next rest ih => exact ih (h.change next)

private theorem assert_eq_plain (h : p.IsIndexed) (head : Fact) (body : List Fact) :
    (p.assert head body).map (·.clauses.toList) id = Plain.assert head body p.clauses.toList := by
  rw [Program.assert, Plain.assert_eq, h.position?_eq]
  cases p.clauses.toList.findIdx? (·.isDeclaredBy head body) with
  | none => simp
  | some i => simp [Array.getElem?_modify, Function.comp_def]

private theorem retract_eq_plain (h : p.IsIndexed) (head : Fact) (body : List Fact) :
    (p.retract head body).map (Prod.map (·.clauses.toList) id) =
      Plain.retract head body p.clauses.toList := by
  rw [Program.retract, Plain.retract_eq, h.position?_eq]
  cases p.clauses.toList.findIdx? (·.isDeclaredBy head body) with
  | none => rfl
  | some i =>
    simp only [Array.getElem?_toList]
    cases (p.clauses[i]?.map Clause.count).getD 0 - 1 with
    | zero => simp [Except.map, eraseAt, ofClauses]
    | succ count => simp [Except.map]

private theorem retractAt_eq_plain (p : Program) (position : Nat) :
    (p.retractAt position).map (Prod.map (·.clauses.toList) id) =
      Plain.retractAt p.clauses.toList position := by
  rw [Program.retractAt, Plain.retractAt, Array.getElem?_toList]
  cases p.clauses[position]? with
  | none => rfl
  | some c => simp [Except.map, eraseAt, ofClauses]

private theorem attempt_map {σ τ α : Type} (forget : σ → τ) (store : σ) (report : α → Outcome)
    (result : Except Refusal (σ × α)) :
    (attempt store report result).map forget id =
      attempt (forget store) report (result.map (Prod.map forget id)) := by
  cases result <;> rfl

/-- One change does the same to a program as to its clauses alone, and reports the same. -/
theorem IsIndexed.change_eq_plain (h : p.IsIndexed) (next : Change) :
    (p.change next).map (·.clauses.toList) id = Plain.change p.clauses.toList next := by
  cases next with
  | assert head body =>
    rw [Plain.change, ← assert_eq_plain h]
    rfl
  | retract head body => rw [Plain.change, ← retract_eq_plain h, Program.change, attempt_map]
  | retractAt position => rw [Plain.change, ← retractAt_eq_plain, Program.change, attempt_map]
  | pushFront c =>
    rw [Program.change, Plain.change, Prod.map_apply, toList_clauses_pushFront]
    rfl
  | popFront =>
    rw [Program.change, Plain.change, Prod.map_apply, List.head?_eq_getElem?, Array.getElem?_toList]
    simp [popFront, eraseAt, ofClauses]

private theorem run_eq_plain (changes : List Change) (h : p.IsIndexed) :
    (run Program.change p changes).1.IsIndexed ∧
      (run Program.change p changes).map (·.clauses.toList) id =
        run Plain.change p.clauses.toList changes := by
  refine ⟨h.run changes, ?_⟩
  induction changes generalizing p with
  | nil => rfl
  | cons next rest ih =>
    calc (run Program.change p (next :: rest)).map (·.clauses.toList) id
        = ((run Program.change (p.change next).1 rest).map (·.clauses.toList) id).map id
            ((p.change next).2 :: ·) := rfl
      _ = (run Plain.change (p.change next).1.clauses.toList rest).map id ((p.change next).2 :: ·) := by
          rw [ih (h.change next)]
      _ = run Plain.change p.clauses.toList (next :: rest) := by
          rw [run, ← h.change_eq_plain]
          rfl

/-- Whatever is done to an empty program, its index stays exact, and it holds and reports what a plain
list does that is scanned clause by clause. -/
theorem refines_run (changes : List Change) :
    (run Program.change ∅ changes).1.Refines (run Plain.change [] changes).1 ∧
      (run Program.change ∅ changes).2 = (run Plain.change [] changes).2 := by
  obtain ⟨indexed, heq⟩ := run_eq_plain changes isIndexed_empty
  have hempty : (∅ : Program).clauses.toList = [] := rfl
  rw [hempty] at heq
  rw [← heq]
  exact ⟨indexed.refines, rfl⟩

end Program

end Horn
