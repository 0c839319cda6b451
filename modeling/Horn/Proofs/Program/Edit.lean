import Mathlib.Data.List.Induction
import Horn.Proofs.Program.Uniqueness

/-!
Histories of a program.

An edit is an assertion or a retraction, and a refused one leaves the program as it is. `mem_edit` lists
what one edit can do to a stored clause, its count included: it was not there before and is counted once,
or it was there, and the edit was counted on it if it declares it.
-/

set_option autoImplicit false
set_option relaxedAutoImplicit false

namespace Horn.Program

/-- An assertion, a retraction by declaration or a retraction at a position. -/
inductive Edit where
  | assert (head : Fact) (body : List Fact)
  | retract (head : Fact) (body : List Fact)
  | retractAt (position : Nat)

/-- The program that an operation returns, or the one before if the operation is refused. -/
def orSame (p : Program) : Except Refusal Program → Program
  | .ok after => after
  | .error _ => p

/-- The program after an edit. -/
def edit (p : Program) : Edit → Program
  | .assert head body => (p.assert head body).1
  | .retract head body => p.orSame ((p.retract head body).map Prod.fst)
  | .retractAt position => p.orSame ((p.retractAt position).map Prod.fst)

/-- The program that a history builds from nothing. -/
def after (history : List Edit) : Program :=
  history.foldl edit ∅

namespace Edit

/-- The edit is an assertion that counts for a clause. -/
def asserts (c : Clause) : Edit → Bool
  | .assert head body => c.isDeclaredBy head body
  | _ => false

/-- The edit is a retraction by declaration that counts for a clause. -/
def retracts (c : Clause) : Edit → Bool
  | .retract head body => c.isDeclaredBy head body
  | _ => false

/-- The edit is an assertion that counts for a clause, and puts it in as a new one. -/
def Inserts (p : Program) (c : Clause) : Edit → Prop
  | .assert head body => c.Recognizes (.once head body) ∧ (p.assert head body).2 = .inserted
  | _ => False

theorem asserts_congr {c d : Clause} (h : c.facts = d.facts) : asserts c = asserts d := by
  funext e
  cases e with
  | assert head body => exact Bool.eq_iff_iff.2 (Clause.recognizes_congr (d := .once head body) h rfl)
  | _ => rfl

theorem retracts_congr {c d : Clause} (h : c.facts = d.facts) : retracts c = retracts d := by
  funext e
  cases e with
  | retract head body => exact Bool.eq_iff_iff.2 (Clause.recognizes_congr (d := .once head body) h rfl)
  | _ => rfl

theorem inserts_congr {p : Program} {c d : Clause} (h : c.facts = d.facts) (e : Edit) :
    e.Inserts p c ↔ e.Inserts p d := by
  cases e with
  | assert head body => exact and_congr_left' (Clause.recognizes_congr h rfl)
  | _ => exact Iff.rfl

end Edit

variable {p q : Program} {head : Fact} {body : List Fact}

theorem after_concat (history : List Edit) (e : Edit) :
    after (history ++ [e]) = (after history).edit e := by
  rw [after, List.foldl_concat]
  rfl

theorem Reachable.edit (h : p.Reachable) (e : Edit) : (p.edit e).Reachable := by
  cases e with
  | assert head body => exact h.assert head body
  | retract head body =>
    rw [Program.edit]
    cases hdone : p.retract head body with
    | ok result =>
      obtain ⟨q, outcome⟩ := result
      exact h.retract hdone
    | error _ => exact h
  | retractAt position =>
    rw [Program.edit]
    cases hdone : p.retractAt position with
    | ok result =>
      obtain ⟨q, c⟩ := result
      exact h.retractAt hdone
    | error _ => exact h

theorem reachable_after (history : List Edit) : (after history).Reachable := by
  induction history using List.reverseRecOn with
  | nil => exact .empty
  | append_singleton history e ih =>
    rw [after_concat]
    exact ih.edit e

/-! ### What becomes of the stored clauses -/

private theorem mem_of_getElem? {clauses : Array Clause} {i : Nat} {c : Clause}
    (h : clauses[i]? = some c) : c ∈ clauses.toList :=
  Array.mem_toList_iff.2 (Array.mem_of_getElem? h)

/-- A clause behind a change at one position stands there or was there before. -/
theorem mem_modify {clauses : Array Clause} {i : Nat} {change : Clause → Clause} {d : Clause}
    (h : d ∈ (clauses.modify i change).toList) :
    (∃ c, clauses[i]? = some c ∧ d = change c) ∨ ∃ j : Nat, j ≠ i ∧ clauses[j]? = some d := by
  obtain ⟨j, hj⟩ := Array.mem_iff_getElem?.1 (Array.mem_toList_iff.1 h)
  rw [Array.getElem?_modify] at hj
  by_cases hij : i = j
  · rw [if_pos hij, Option.map_eq_some_iff] at hj
    obtain ⟨c, hc, rfl⟩ := hj
    exact .inl ⟨c, hij ▸ hc, rfl⟩
  · rw [if_neg hij] at hj
    exact .inr ⟨j, Ne.symm hij, hj⟩

theorem toList_eraseAt (p : Program) (i : Nat) :
    (p.eraseAt i).clauses.toList = p.clauses.toList.eraseIdx i :=
  Array.toList_eraseIdxIfInBounds

/-- A clause that is left when one is removed was at another position before. -/
theorem mem_eraseAt {i : Nat} {d : Clause} (h : d ∈ (p.eraseAt i).clauses.toList) :
    ∃ j : Nat, j ≠ i ∧ p.clauses[j]? = some d := by
  rw [toList_eraseAt, List.mem_eraseIdx_iff_getElem?] at h
  simpa using h

/-- A stored clause after an edit was there before, the edit was counted on it if it declares it, and
its count did not drop to zero. -/
def Edit.Keeps (p : Program) (d : Clause) (e : Edit) : Prop :=
  ∃ c ∈ p.clauses.toList, c.facts = d.facts ∧ ¬ e.Inserts p c ∧
    (e.retracts c).toNat + d.count = c.count + (e.asserts c).toNat ∧ (1 ≤ c.count → 1 ≤ d.count)

private theorem keeps_of_mem {e : Edit} {d : Clause} (mem : d ∈ p.clauses.toList)
    (asserts : e.asserts d = false) (retracts : e.retracts d = false) : e.Keeps p d := by
  refine ⟨d, mem, rfl, fun inserts => ?_, ?_, id⟩
  · cases e with
    | assert head body => exact Bool.eq_false_iff.1 asserts inserts.1
    | _ => exact inserts
  · rw [asserts, retracts]
    exact Nat.zero_add _

/-- A declaration that is found at one position does not state the clauses at the others. -/
private theorem isDeclaredBy_eq_false (h : p.Reachable) {i j : Nat} {c : Clause}
    (found : p.position? head body = some i) (hij : j ≠ i) (hc : p.clauses[j]? = some c) :
    c.isDeclaredBy head body = false := by
  rw [Bool.eq_false_iff]
  intro recognizes
  have hj : p.position? head body = some j := h.position?_eq_some_iff.2 ⟨c, hc, recognizes⟩
  exact hij (Option.some.inj (hj.symm.trans found))

private theorem mem_assert (h : p.Reachable) {d : Clause}
    (mem : d ∈ (p.assert head body).1.clauses.toList) :
    ((Edit.assert head body).Inserts p d ∧ d.count = 1) ∨ (Edit.assert head body).Keeps p d := by
  cases hfound : p.position? head body with
  | none =>
    have hinserted : p.assert head body = (⟨p.clauses.push (.once head body),
        p.index.insert head.key p.clauses.size⟩, .inserted) := by
      rw [Program.assert, hfound]
    rw [hinserted, Array.toList_push, List.mem_append, List.mem_singleton] at mem
    rcases mem with hold | rfl
    · have hnot := h.position?_eq_none_iff.1 hfound d hold
      exact .inr (keeps_of_mem hold (Bool.eq_false_iff.2 hnot) rfl)
    · exact .inl ⟨⟨Clause.Recognizes.refl _, congrArg Prod.snd hinserted⟩, rfl⟩
  | some i =>
    obtain ⟨c, hc, recognizes⟩ := h.position?_eq_some_iff.1 hfound
    have hasserted := (countsAt_of_position? hc hfound).asserted
    rw [hasserted] at mem
    refine .inr ?_
    rcases mem_modify mem with ⟨c', hc', rfl⟩ | ⟨j, hij, hd⟩
    · obtain rfl : c = c' := Option.some.inj (hc.symm.trans hc')
      refine ⟨c, mem_of_getElem? hc, rfl, fun inserts => ?_, ?_, fun _ => Nat.le_add_left 1 _⟩
      · exact Assertion.noConfusion (inserts.2.symm.trans (congrArg Prod.snd hasserted))
      · have hasserts : Edit.asserts c (.assert head body) = true := recognizes
        rw [hasserts]
        exact Nat.zero_add _
    · exact keeps_of_mem (mem_of_getElem? hd) (isDeclaredBy_eq_false h hfound hij hd) rfl

private theorem mem_retract (h : p.Reachable) {d : Clause}
    (mem : d ∈ (p.edit (.retract head body)).clauses.toList) :
    (Edit.retract head body).Keeps p d := by
  cases hfound : p.position? head body with
  | none =>
    have hrefused : p.edit (.retract head body) = p := by
      rw [Program.edit, Program.retract, hfound]
      rfl
    rw [hrefused] at mem
    have hnot := h.position?_eq_none_iff.1 hfound d mem
    exact keeps_of_mem mem rfl (Bool.eq_false_iff.2 hnot)
  | some i =>
    obtain ⟨c, hc, recognizes⟩ := h.position?_eq_some_iff.1 hfound
    have hother {j : Nat} (hij : j ≠ i) (hd : p.clauses[j]? = some d) :
        (Edit.retract head body).Keeps p d :=
      keeps_of_mem (mem_of_getElem? hd) rfl (isDeclaredBy_eq_false h hfound hij hd)
    rw [Program.edit, (countsAt_of_position? hc hfound).retracted] at mem
    by_cases hcount : c.count ≤ 1
    · rw [if_pos hcount] at mem
      obtain ⟨j, hij, hd⟩ := mem_eraseAt (p := p) mem
      exact hother hij hd
    · rw [if_neg hcount] at mem
      have hmodified : d ∈ (p.clauses.modify i fun d => { d with count := c.count - 1 }).toList := mem
      rcases mem_modify hmodified with ⟨c', hc', rfl⟩ | ⟨j, hij, hd⟩
      · obtain rfl : c = c' := Option.some.inj (hc.symm.trans hc')
        have hretracts : Edit.retracts c (.retract head body) = true := recognizes
        refine ⟨c, mem_of_getElem? hc, rfl, id, ?_, fun _ => ?_⟩
        · rw [hretracts]
          change 1 + (c.count - 1) = c.count + 0
          omega
        · change 1 ≤ c.count - 1
          omega
      · exact hother hij hd

private theorem mem_retractAt {position : Nat} {d : Clause}
    (mem : d ∈ (p.edit (.retractAt position)).clauses.toList) : d ∈ p.clauses.toList := by
  rw [Program.edit, Program.retractAt] at mem
  cases hc : p.clauses[position]? with
  | none => rwa [hc] at mem
  | some c =>
    rw [hc] at mem
    obtain ⟨j, -, hd⟩ := mem_eraseAt (p := p) mem
    exact mem_of_getElem? hd

/-- What one edit makes of the stored clauses: each of them was just inserted and is counted once, or
was there before. -/
theorem Reachable.mem_edit (h : p.Reachable) (e : Edit) {d : Clause}
    (mem : d ∈ (p.edit e).clauses.toList) : (e.Inserts p d ∧ d.count = 1) ∨ e.Keeps p d := by
  cases e with
  | assert head body => exact mem_assert h mem
  | retract head body => exact .inr (mem_retract h mem)
  | retractAt position => exact .inr (keeps_of_mem (mem_retractAt mem) rfl rfl)

end Horn.Program
