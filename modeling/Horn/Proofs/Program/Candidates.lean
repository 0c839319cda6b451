import Mathlib.Data.List.Basic
import Horn.Program.Basic

/-!
The index of a program that is indexed anew finds exactly the clauses of a key.

`Program.candidates_ofClauses` says that the candidates are the clauses with the key, in order, and
`Program.defines_ofClauses` that a predicate is defined if it has one. Both are read off
`Index.positions_extend`, which says where an index that grows clause by clause finds a key.
-/

set_option autoImplicit false
set_option relaxedAutoImplicit false

namespace Horn

namespace Index

private theorem lookup_insertEntry (key : String) (position : Nat)
    (entries : List (String × List Nat)) (other : String) :
    ((insertEntry key position entries).lookup other).getD [] =
      (entries.lookup other).getD [] ++ if other = key then [position] else [] := by
  induction entries with
  | nil =>
    by_cases h : other = key
    · simp [insertEntry, h]
    · simp [insertEntry, List.lookup_cons, beq_eq_false_iff_ne.2 h, h]
  | cons entry rest ih =>
    obtain ⟨name, places⟩ := entry
    rw [insertEntry]
    by_cases hname : name = key
    · rw [if_pos hname]
      by_cases h : other = name
      · simp [h, hname]
      · have hkey : other ≠ key := fun hk => h (hk.trans hname.symm)
        simp [List.lookup_cons, beq_eq_false_iff_ne.2 h, hkey]
    · rw [if_neg hname]
      by_cases h : other = name
      · have hkey : other ≠ key := fun hk => hname (h.symm.trans hk)
        simp [h, hname]
      · simpa [List.lookup_cons, beq_eq_false_iff_ne.2 h] using ih

theorem positions_insert (index : Index) (key : String) (position : Nat) (other : String) :
    (index.insert key position).positions other =
      index.positions other ++ if other = key then [position] else [] :=
  lookup_insertEntry key position index.entries other

/-- An index that is extended by clauses finds a key where it did before and then at the clauses
that have it. -/
theorem positions_extend (index : Index) (start : Nat) (clauses : List Clause) (key : String) :
    (index.extend start clauses).positions key =
      index.positions key ++
        (clauses.zipIdx start).filterMap fun p => if p.1.key = key then some p.2 else none := by
  induction clauses generalizing index start with
  | nil => simp [extend]
  | cons c rest ih =>
    rw [extend, ih, positions_insert, List.zipIdx_cons, List.filterMap_cons]
    by_cases h : c.key = key
    · simp [h]
    · simp [h, Ne.symm h]

theorem positions_ofClauses (clauses : List Clause) (key : String) :
    (ofClauses clauses).positions key =
      clauses.zipIdx.filterMap fun p => if p.1.key = key then some p.2 else none := by
  rw [ofClauses, positions_extend]
  rfl

end Index

namespace Program

/-- The candidates for a key are the clauses that have it, in order. -/
theorem candidates_ofClauses (clauses : Array Clause) (key : String) :
    (ofClauses clauses).candidates key = clauses.toList.filter fun c => c.key = key := by
  have hplace : ∀ p ∈ clauses.toList.zipIdx,
      ((if p.1.key = key then some p.2 else none).bind fun i => clauses[i]?) =
        if p.1.key = key then some p.1 else none := by
    intro p hp
    have hget : clauses[p.2]? = some p.1 := by
      rw [← Array.getElem?_toList]
      simpa using List.mem_zipIdx_iff_getElem?.1 hp
    by_cases h : p.1.key = key <;> simp [h, hget]
  calc (ofClauses clauses).candidates key
      = clauses.toList.zipIdx.filterMap fun p =>
          (if p.1.key = key then some p.2 else none).bind fun i => clauses[i]? := by
        rw [candidates, ofClauses, Index.positions_ofClauses, List.filterMap_filterMap]
    _ = clauses.toList.zipIdx.filterMap fun p => if p.1.key = key then some p.1 else none :=
        List.filterMap_congr hplace
    _ = (clauses.toList.zipIdx.map Prod.fst).filterMap
          fun c => if c.key = key then some c else none := by
        rw [List.filterMap_map]
        rfl
    _ = clauses.toList.filter fun c => c.key = key := by
        rw [List.zipIdx_map_fst, ← List.filterMap_eq_filter]
        congr 1
        funext c
        by_cases h : c.key = key <;> simp [Option.guard, h]

/-- A predicate is defined if some clause has its key. -/
theorem defines_ofClauses (clauses : Array Clause) (key : String) :
    (ofClauses clauses).defines key = true ↔ ∃ c ∈ clauses.toList, c.key = key := by
  have hempty : (Index.ofClauses clauses.toList).positions key = [] ↔
      ∀ c ∈ clauses.toList, c.key ≠ key := by
    rw [Index.positions_ofClauses, List.filterMap_eq_nil_iff]
    constructor
    · intro h c hc hkey
      obtain ⟨i, hi⟩ := List.mem_iff_getElem?.1 hc
      have := h (c, i) (List.mem_zipIdx_iff_getElem?.2 hi)
      simp [hkey] at this
    · intro h p hp
      have hmem : p.1 ∈ clauses.toList :=
        List.mem_of_getElem? (List.mem_zipIdx_iff_getElem?.1 hp)
      simp [h p.1 hmem]
  rw [defines, ofClauses, Bool.not_eq_true', List.isEmpty_eq_false_iff, ne_eq, hempty]
  simp

theorem toList_clauses_pushFront (p : Program) (c : Clause) :
    (p.pushFront c).clauses.toList = c :: p.clauses.toList := by
  simp [pushFront, ofClauses]

theorem candidates_pushFront (p : Program) (c : Clause) (key : String) :
    (p.pushFront c).candidates key = (c :: p.clauses.toList).filter fun c => c.key = key := by
  rw [pushFront, candidates_ofClauses]
  simp

theorem defines_pushFront (p : Program) (c : Clause) (key : String) :
    (p.pushFront c).defines key = true ↔ ∃ d ∈ c :: p.clauses.toList, d.key = key := by
  rw [pushFront, defines_ofClauses]
  simp

end Program

end Horn
