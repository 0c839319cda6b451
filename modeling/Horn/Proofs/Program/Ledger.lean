import Horn.Proofs.Program.Edit
import Horn.Proofs.Program.Variant

/-!
The counts of a program are a ledger of its history.

A stored clause is counted as often as it was asserted since it was last inserted, less its retractions
by declaration, where assertions and retractions of clauses that are recognized count as its own. The
main statement is `ledger_after`; its step is `Reachable.mem_edit`.
-/

set_option autoImplicit false
set_option relaxedAutoImplicit false

namespace Horn.Program

variable {p : Program} {history : List Edit} {c d : Clause} {e : Edit}

/-- Of the last edits of a history the first one inserted a clause, and no other one did. -/
structure IsEntry (c : Clause) (before since : List Edit) : Prop where
  nonempty : since ≠ []
  inserts_iff : ∀ i e, since[i]? = some e →
    (e.Inserts (after (before ++ since.take i)) c ↔ i = 0)

/-- The count of a clause and its retractions by declaration since it was last inserted make up its
assertions since then. -/
def IsBalanced (history : List Edit) (c : Clause) : Prop :=
  ∃ before since, history = before ++ since ∧ IsEntry c before since ∧
    since.countP (Edit.retracts c) + c.count = since.countP (Edit.asserts c)

/-- A program keeps the ledger of a history: a declaration is found at the one clause that recognizes it,
every clause is counted as the history says, and what was just asserted can be retracted again. -/
structure IsLedger (history : List Edit) (p : Program) : Prop where
  found : ∀ head body i, p.position? head body = some i ↔
    ∃ c, p.clauses[i]? = some c ∧ c.Recognizes (.once head body)
  distinct : p.IsDistinct
  positive : ∀ c ∈ p.clauses.toList, 1 ≤ c.count
  balanced : ∀ c ∈ p.clauses.toList, IsBalanced history c
  restored : ∀ head body, ∃ outcome, (p.assert head body).1.retract head body = .ok (p, outcome)

/-! ### Counts -/

private theorem isBalanced_of_inserts (inserts : e.Inserts (after history) c) (once : c.count = 1) :
    IsBalanced (history ++ [e]) c := by
  refine ⟨history, [e], rfl, ⟨List.cons_ne_nil _ _, fun i e' hi => ?_⟩, ?_⟩
  · rw [List.getElem?_singleton] at hi
    obtain ⟨rfl, rfl⟩ : i = 0 ∧ e = e' := by simpa using hi
    simpa using inserts
  · cases e with
    | assert head body =>
      have hasserts : Edit.asserts c (.assert head body) = true := inserts.1
      simp [Edit.retracts, hasserts, once]
    | _ => exact inserts.elim

/-- An edit that does not insert a clause is entered behind those since it was inserted. -/
private theorem IsBalanced.concat (h : IsBalanced history c) (facts : c.facts = d.facts)
    (kept : ¬ e.Inserts (after history) c)
    (counted : (e.retracts c).toNat + d.count = c.count + (e.asserts c).toNat) :
    IsBalanced (history ++ [e]) d := by
  obtain ⟨before, since, rfl, entry, hcount⟩ := h
  refine ⟨before, since ++ [e], List.append_assoc _ _ _, ⟨by simp, fun i e' hi => ?_⟩, ?_⟩
  · rw [← Edit.inserts_congr facts]
    rcases Nat.lt_or_ge i since.length with hlt | hge
    · rw [List.getElem?_append_left hlt] at hi
      rw [List.take_append_of_le_length (Nat.le_of_lt hlt)]
      exact entry.inserts_iff i e' hi
    · obtain ⟨rfl, rfl⟩ : i = since.length ∧ e = e' := by
        rw [List.getElem?_append_right hge, List.getElem?_singleton] at hi
        have hlast : i - since.length = 0 ∧ e = e' := by simpa using hi
        exact ⟨by omega, hlast.2⟩
      rw [List.take_left]
      have hlength : since.length ≠ 0 := List.length_eq_zero_iff.not.2 entry.nonempty
      exact iff_of_false kept hlength
  · have hlast (counts : Edit → Bool) : [e].countP counts = (counts e).toNat := by
      cases h : counts e <;> simp [h]
    rw [← Edit.retracts_congr facts, ← Edit.asserts_congr facts, List.countP_append,
      List.countP_append, hlast, hlast]
    omega

private theorem balanced_after (history : List Edit) :
    ∀ d ∈ (after history).clauses.toList, 1 ≤ d.count ∧ IsBalanced history d := by
  induction history using List.reverseRecOn with
  | nil => exact fun d hd => absurd hd List.not_mem_nil
  | append_singleton history e ih =>
    intro d hd
    rw [after_concat] at hd
    rcases (reachable_after history).mem_edit e hd with ⟨inserts, once⟩ | keeps
    · exact ⟨Nat.le_of_eq once.symm, isBalanced_of_inserts inserts once⟩
    · obtain ⟨c, hc, facts, kept, counted, positive⟩ := keeps
      obtain ⟨hpos, balanced⟩ := ih c hc
      exact ⟨positive hpos, balanced.concat facts kept counted⟩

/-! ### Taking an assertion back -/

private theorem modify_modify_count {clauses : Array Clause} {i : Nat} (stored : clauses[i]? = some c) :
    (clauses.modify i fun c => { c with count := c.count + 1 }).modify i
      (fun d => { d with count := c.count }) = clauses := by
  refine Array.ext_getElem? fun j => ?_
  rw [Array.getElem?_modify, Array.getElem?_modify]
  by_cases hij : i = j
  · subst hij
    simp [stored]
  · simp [hij]

/-- An assertion that is retracted leaves the program as it was, its index included. -/
private theorem retract_assert (h : p.Reachable) (positive : ∀ c ∈ p.clauses.toList, 1 ≤ c.count)
    (head : Fact) (body : List Fact) :
    ∃ outcome, (p.assert head body).1.retract head body = .ok (p, outcome) := by
  have hafter := h.assert head body
  cases hfound : p.position? head body with
  | none =>
    have hclauses : (p.assert head body).1.clauses = p.clauses.push (.once head body) := by
      rw [Program.assert, hfound]
    have hlast : (p.assert head body).1.clauses[p.clauses.size]? = some (.once head body) := by
      rw [hclauses, Array.getElem?_push_size]
    have hagain := hafter.position?_eq_some_iff.2 ⟨_, hlast, Clause.Recognizes.refl _⟩
    have hretracted := (countsAt_of_position? hlast hagain).retracted
    have honce : (Clause.once head body).count ≤ 1 := Nat.le_refl 1
    rw [if_pos honce] at hretracted
    refine ⟨.removed, hretracted.trans ?_⟩
    have herased : ((p.assert head body).1.eraseAt p.clauses.size).clauses = p.clauses := by
      rw [← Array.toList_inj, toList_eraseAt, hclauses, Array.toList_push, ← Array.length_toList,
        List.eraseIdx_append_of_length_le (Nat.le_refl _), Nat.sub_self]
      exact List.append_nil _
    have hindexed : ((p.assert head body).1.eraseAt p.clauses.size).IsIndexed :=
      isIndexed_ofClauses _
    rw [hindexed.eq_ofClauses, herased, ← h.isIndexed.eq_ofClauses]
  | some i =>
    obtain ⟨c, hc, recognizes⟩ := h.position?_eq_some_iff.1 hfound
    have hasserted := (countsAt_of_position? hc hfound).asserted
    have hstored : (p.assert head body).1.clauses[i]? = some { c with count := c.count + 1 } := by
      rw [hasserted, Array.getElem?_modify, if_pos rfl, hc]
      rfl
    have hagain : (p.assert head body).1.position? head body = some i :=
      hafter.position?_eq_some_iff.2 ⟨_, hstored, recognizes⟩
    have hretracted := (countsAt_of_position? hstored hagain).retracted
    have hpositive := positive c (Array.mem_toList_iff.2 (Array.mem_of_getElem? hc))
    rw [if_neg (by simp; omega)] at hretracted
    refine ⟨.decremented c.count, ?_⟩
    rw [hretracted]
    simp only [hasserted, Nat.add_sub_cancel, modify_modify_count hc]

/-- Recognizing is an equivalence between variants of one clause, and whatever is asserted and retracted,
no two stored clauses are equivalent, each is counted as the history says, and an assertion can be taken
back. -/
theorem ledger_after : Equivalence Clause.Recognizes ∧
    (∀ c d : Clause, c.Recognizes d → c.IsVariant d) ∧
    ∀ history : List Edit, IsLedger history (after history) := by
  refine ⟨⟨Clause.Recognizes.refl, .symm, .trans⟩, fun _ _ h => h.isVariant, fun history => ?_⟩
  have hreachable := reachable_after history
  have hcounts := balanced_after history
  exact
    { found := fun _ _ _ => hreachable.position?_eq_some_iff
      distinct := hreachable.isDistinct
      positive := fun c hc => (hcounts c hc).1
      balanced := fun c hc => (hcounts c hc).2
      restored := retract_assert hreachable fun c hc => (hcounts c hc).1 }

/-- A clause that is asserted, retracted and then asserted twice. -/
def reasserted : List Edit :=
  let one : Fact := ⟨"p", [.lit (.integer 1)]⟩
  [.assert one [], .retract one [], .assert one [], .assert one []]

/-- It is counted twice: its first assertion was taken back before it was last inserted. -/
theorem ledger_after_reasserted :
    (after reasserted).clauses.toList = [⟨⟨"p", [.lit (.integer 1)]⟩, [], 2⟩] ∧
      IsLedger reasserted (after reasserted) :=
  ⟨by with_unfolding_all rfl, ledger_after.2.2 reasserted⟩

end Horn.Program
