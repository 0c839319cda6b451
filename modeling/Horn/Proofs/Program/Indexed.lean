import Horn.Proofs.Program.Change

/-!
Programs with the index that their clauses have.

Assertions extend the index clause by clause, everything else that moves clauses indexes them anew.
Both ways lead to the same index, `Index.ofClauses`, its order included; so a clause that is put in
front and taken off again leaves the program as it was: `Program.popFront_pushFront`.
-/

set_option autoImplicit false
set_option relaxedAutoImplicit false

namespace Horn

namespace Index

theorem extend_concat (index : Index) (start : Nat) (clauses : List Clause) (c : Clause) :
    index.extend start (clauses ++ [c]) =
      (index.extend start clauses).insert c.key (start + clauses.length) := by
  induction clauses generalizing index start with
  | nil => rfl
  | cons first rest ih =>
    have hplace : start + 1 + rest.length = start + (first :: rest).length := by
      rw [List.length_cons]
      omega
    rw [List.cons_append, extend, ih, extend, hplace]

theorem ofClauses_concat (clauses : List Clause) (c : Clause) :
    ofClauses (clauses ++ [c]) = (ofClauses clauses).insert c.key clauses.length := by
  rw [ofClauses, extend_concat, Nat.zero_add, ofClauses]

private theorem extend_congr {clauses others : List Clause}
    (keys : clauses.map Clause.key = others.map Clause.key) (index : Index) (start : Nat) :
    index.extend start clauses = index.extend start others := by
  induction clauses generalizing others index start with
  | nil =>
    obtain rfl : others = [] := List.map_eq_nil_iff.1 keys.symm
    rfl
  | cons c rest ih =>
    cases others with
    | nil => simp at keys
    | cons d others =>
      obtain ⟨hkey, hrest⟩ := List.cons.inj keys
      rw [extend, extend, hkey, ih hrest]

/-- Clauses with the same keys have the same index. -/
theorem ofClauses_congr {clauses others : List Clause}
    (keys : clauses.map Clause.key = others.map Clause.key) :
    ofClauses clauses = ofClauses others :=
  extend_congr keys _ _

end Index

namespace Program

variable {p q : Program} {head : Fact} {body : List Fact}

/-- The index of a program is the one that its clauses have. -/
def IsIndexed (p : Program) : Prop :=
  p.index = .ofClauses p.clauses.toList

theorem isIndexed_empty : IsIndexed ∅ := rfl

theorem isIndexed_ofClauses (clauses : Array Clause) : (ofClauses clauses).IsIndexed := rfl

theorem IsIndexed.eq_ofClauses (h : p.IsIndexed) : p = ofClauses p.clauses := by
  obtain ⟨clauses, index⟩ := p
  have hindex : index = .ofClauses clauses.toList := h
  rw [hindex]
  rfl

theorem keys_modify (clauses : Array Clause) (position : Nat) (change : Nat → Nat) :
    (clauses.modify position fun c => { c with count := change c.count }).toList.map Clause.key =
      clauses.toList.map Clause.key := by
  rw [Array.toList_modify]
  apply List.ext_getElem
  · simp
  · intro i hi _
    rw [List.getElem_map, List.getElem_map, List.getElem_modify]
    split <;> rfl

/-- Counts do not matter to an index. -/
private theorem IsIndexed.modify (h : p.IsIndexed) (position : Nat) (change : Nat → Nat) :
    IsIndexed { p with
      clauses := p.clauses.modify position fun c => { c with count := change c.count } } := by
  have hkeys := keys_modify p.clauses position change
  have hindex : p.index = .ofClauses p.clauses.toList := h
  rw [IsIndexed]
  simp only [hindex]
  exact Index.ofClauses_congr hkeys.symm

theorem IsIndexed.assert (h : p.IsIndexed) (head : Fact) (body : List Fact) :
    (p.assert head body).1.IsIndexed := by
  rw [Program.assert]
  split
  · exact h.modify _ (· + 1)
  · have hindex : p.index = .ofClauses p.clauses.toList := h
    rw [IsIndexed]
    simp only [hindex, Array.toList_push, Index.ofClauses_concat, Array.length_toList]
    rfl

theorem IsIndexed.retract (h : p.IsIndexed) {outcome : Retraction}
    (done : p.retract head body = .ok (q, outcome)) : q.IsIndexed := by
  rw [Program.retract] at done
  split at done
  · simp at done
  · split at done
    · obtain ⟨rfl, -⟩ := Prod.mk.inj (Except.ok.inj done)
      exact isIndexed_ofClauses _
    · rename_i left _
      obtain ⟨rfl, -⟩ := Prod.mk.inj (Except.ok.inj done)
      exact h.modify _ fun _ => left + 1

theorem isIndexed_of_retractAt {position : Nat} {c : Clause}
    (done : p.retractAt position = .ok (q, c)) : q.IsIndexed := by
  rw [retractAt] at done
  split at done
  · simp at done
  · obtain ⟨rfl, -⟩ := Prod.mk.inj (Except.ok.inj done)
    exact isIndexed_ofClauses _

theorem popFront_pushFront (h : p.IsIndexed) (c : Clause) : (p.pushFront c).popFront = p := by
  have hclauses : (p.pushFront c).popFront.clauses = p.clauses := by
    rw [← Array.toList_inj]
    exact toList_popFront_pushFront p c
  have hindexed : (p.pushFront c).popFront.IsIndexed := isIndexed_ofClauses _
  rw [hindexed.eq_ofClauses, hclauses]
  exact h.eq_ofClauses.symm

end Program

end Horn
