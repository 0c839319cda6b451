import Horn.Proofs.Program.Candidates

/-!
What assertions and retractions do to the clauses of a program.

Counts do not matter for what follows from a program, so the statements are about `Program.facts`,
the heads and bodies of the clauses in order: an assertion adds one at the end or none, a retraction
leaves some of them out, and a clause that is put in front comes off again.
-/

set_option autoImplicit false
set_option relaxedAutoImplicit false

namespace Horn.Program

/-- Head and body of every clause, in order. -/
def facts (p : Program) : List (List Fact) :=
  p.clauses.toList.map Clause.facts

theorem mem_facts_of_mem {p : Program} {c : Clause} (h : c ∈ p.clauses.toList) :
    c.facts ∈ p.facts :=
  List.mem_map_of_mem h

/-- Head and body in the list are those of a clause. -/
theorem exists_clause_of_mem_facts {p : Program} {head : Fact} {body : List Fact}
    (h : head :: body ∈ p.facts) : ∃ c ∈ p.clauses.toList, c.head = head ∧ c.body = body := by
  obtain ⟨c, hc, hfacts⟩ := List.mem_map.1 h
  exact ⟨c, hc, List.cons.inj hfacts⟩

theorem facts_modify (p : Program) (position : Nat) (change : Nat → Nat) :
    facts { p with clauses := p.clauses.modify position fun c => { c with count := change c.count } } =
      p.facts := by
  rw [facts, facts, Array.toList_modify]
  refine List.ext_getElem (by simp) fun i hi _ => ?_
  rw [List.getElem_map, List.getElem_map, List.getElem_modify]
  split <;> rfl

/-- An assertion adds a clause at the end or counts one that is there. -/
theorem facts_assert (p : Program) (head : Fact) (body : List Fact) :
    (p.assert head body).1.facts = p.facts ∨
      (p.assert head body).1.facts = p.facts ++ [head :: body] := by
  rw [assert]
  split
  · exact .inl (facts_modify p _ (· + 1))
  · exact .inr (by simp [facts, Clause.once, Clause.facts])

theorem facts_eraseAt (p : Program) (position : Nat) : (p.eraseAt position).facts.Sublist p.facts := by
  refine List.Sublist.map _ ?_
  rw [eraseAt, ofClauses, Array.eraseIdxIfInBounds]
  split
  · rw [Array.toList_eraseIdx]
    exact List.eraseIdx_sublist _ _
  · exact List.Sublist.refl _

/-- A retraction that does not remove its clause keeps all heads and bodies. -/
theorem facts_of_decremented {p q : Program} {head : Fact} {body : List Fact} {count : Nat}
    (h : p.retract head body = .ok (q, .decremented count)) : q.facts = p.facts := by
  rw [retract] at h
  split at h
  · simp at h
  · split at h
    · simp at h
    · simp only [Except.ok.injEq, Prod.mk.injEq] at h
      obtain ⟨rfl, -⟩ := h
      rename_i left _
      exact facts_modify p _ fun _ => left + 1

/-- A retraction leaves clauses out at most. -/
theorem facts_retract {p q : Program} {head : Fact} {body : List Fact} {outcome : Retraction}
    (h : p.retract head body = .ok (q, outcome)) : q.facts.Sublist p.facts := by
  cases outcome with
  | decremented count => rw [facts_of_decremented h]
  | removed =>
    rw [retract] at h
    split at h
    · simp at h
    · split at h
      · simp only [Except.ok.injEq, Prod.mk.injEq] at h
        obtain ⟨rfl, -⟩ := h
        exact facts_eraseAt p _
      · simp at h

theorem facts_retractAt {p q : Program} {position : Nat} {c : Clause}
    (h : p.retractAt position = .ok (q, c)) : q.facts.Sublist p.facts := by
  rw [retractAt] at h
  split at h
  · simp at h
  · simp only [Except.ok.injEq, Prod.mk.injEq] at h
    obtain ⟨rfl, -⟩ := h
    exact facts_eraseAt p _

/-- A clause that was put in front comes off again. -/
@[simp] theorem toList_popFront_pushFront (p : Program) (c : Clause) :
    (p.pushFront c).popFront.clauses.toList = p.clauses.toList := by
  have hsize : 0 < (#[c] ++ p.clauses).size := by
    rw [Array.size_append]
    exact Nat.lt_of_lt_of_le Nat.zero_lt_one (Nat.le_add_right _ _)
  rw [popFront, eraseAt, pushFront, ofClauses, ofClauses, Array.eraseIdxIfInBounds, dif_pos hsize,
    Array.toList_eraseIdx]
  simp

end Horn.Program
