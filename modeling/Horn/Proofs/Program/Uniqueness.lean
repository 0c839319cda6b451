import Mathlib.Data.List.Find
import Horn.Proofs.Program.Indexed
import Horn.Proofs.Program.Recognition

/-!
No clause is stored twice.

A program that assertions and retractions build from nothing never holds two clauses that recognize each
other. So a declaration is counted on one clause at most, and the search for it through the index finds
that one: `Reachable.position?_eq_some_iff`.
-/

set_option autoImplicit false
set_option relaxedAutoImplicit false

namespace Horn.Program

variable {p q : Program} {head : Fact} {body : List Fact}

/-- The programs that assertions and retractions build from nothing. -/
inductive Reachable : Program → Prop
  | empty : Reachable ∅
  | assert {p : Program} (reachable : Reachable p) (head : Fact) (body : List Fact) :
      Reachable (p.assert head body).1
  | retract {p q : Program} (reachable : Reachable p) {head : Fact} {body : List Fact}
      {outcome : Retraction} (done : p.retract head body = .ok (q, outcome)) : Reachable q
  | retractAt {p q : Program} (reachable : Reachable p) {position : Nat} {c : Clause}
      (done : p.retractAt position = .ok (q, c)) : Reachable q

theorem Reachable.isIndexed (h : p.Reachable) : p.IsIndexed := by
  induction h with
  | empty => exact isIndexed_empty
  | assert _ head body ih => exact ih.assert head body
  | retract _ done ih => exact ih.retract done
  | retractAt _ done _ => exact isIndexed_of_retractAt done

/-- No two clauses of the program recognize each other. -/
def IsDistinct (p : Program) : Prop :=
  p.clauses.toList.Pairwise fun c d => ¬ c.Recognizes d

/-- Heads and bodies decide whether a program is distinct. -/
private theorem isDistinct_iff : p.IsDistinct ↔
    p.facts.Pairwise fun fs gs => ∀ c d : Clause, c.facts = fs → d.facts = gs → ¬ c.Recognizes d := by
  rw [IsDistinct, Program.facts, List.pairwise_map]
  refine List.Pairwise.iff fun c d => ?_
  constructor
  · intro h c' d' hc hd
    rwa [Clause.recognizes_congr hc hd]
  · intro h
    exact h c d rfl rfl

private theorem IsDistinct.of_sublist (h : p.IsDistinct) (sublist : q.facts.Sublist p.facts) :
    q.IsDistinct :=
  isDistinct_iff.2 ((isDistinct_iff.1 h).sublist sublist)

/-- Two clauses of a distinct program that recognize each other are one. -/
theorem IsDistinct.eq_of_recognizes (h : p.IsDistinct) {i j : Nat} {c d : Clause}
    (hi : p.clauses[i]? = some c) (hj : p.clauses[j]? = some d) (recognizes : c.Recognizes d) : i = j := by
  rw [← Array.getElem?_toList] at hi hj
  obtain ⟨hlti, rfl⟩ := List.getElem?_eq_some_iff.1 hi
  obtain ⟨hltj, rfl⟩ := List.getElem?_eq_some_iff.1 hj
  have hpairwise := List.pairwise_iff_getElem.1 h
  rcases Nat.lt_trichotomy i j with hlt | heq | hgt
  · exact absurd recognizes (hpairwise i j hlti hltj hlt)
  · exact heq
  · exact absurd recognizes.symm (hpairwise j i hltj hlti hgt)

private theorem recognizes_of_position? {i : Nat} (h : p.position? head body = some i) :
    ∃ c, p.clauses[i]? = some c ∧ c.Recognizes (.once head body) := by
  have hfound := List.find?_some h
  rwa [Option.any_eq_true] at hfound

/-- The search through the index finds the first clause of the whole list that a declaration states. -/
theorem IsIndexed.position?_eq (h : p.IsIndexed) (head : Fact) (body : List Fact) :
    p.position? head body = p.clauses.toList.findIdx? (·.isDeclaredBy head body) := by
  have hindex : p.index = .ofClauses p.clauses.toList := h
  have hdeclared : ∀ place ∈ p.clauses.toList.zipIdx,
      ((if place.1.key = head.key then some place.2 else none).any fun position =>
        p.clauses[position]?.any (·.isDeclaredBy head body)) = place.1.isDeclaredBy head body := by
    intro place hplace
    have hstored : p.clauses[place.2]? = some place.1 := by
      rw [← Array.getElem?_toList]
      exact List.mem_zipIdx_iff_getElem?.1 hplace
    by_cases hkey : place.1.key = head.key
    · simp [hkey, hstored]
    · have hnot : place.1.isDeclaredBy head body = false := by
        rw [Bool.eq_false_iff]
        intro hrecognizes
        exact hkey (Clause.Recognizes.key (d := .once head body) hrecognizes)
      simp [hkey, hnot]
  rw [position?, hindex, Index.positions_ofClauses, List.find?_filterMap, List.find?_congr hdeclared,
    List.findIdx?_eq_fst_find?_zipIdx]
  cases hfound : p.clauses.toList.zipIdx.find? (fun place => place.1.isDeclaredBy head body) with
  | none => rfl
  | some place =>
    have hkey : place.1.key = head.key :=
      Clause.Recognizes.key (d := .once head body) (List.find?_some hfound :)
    simp [hkey]

/-- Every clause that a declaration states is found through the index. -/
private theorem IsIndexed.exists_position? (h : p.IsIndexed) {i : Nat} {c : Clause}
    (hi : p.clauses[i]? = some c) (recognizes : c.Recognizes (.once head body)) :
    ∃ j, p.position? head body = some j := by
  have hmem : c ∈ p.clauses.toList := Array.mem_toList_iff.2 (Array.mem_of_getElem? hi)
  rw [← Option.isSome_iff_exists, h.position?_eq, List.findIdx?_isSome, List.any_eq_true]
  exact ⟨c, hmem, recognizes⟩

theorem IsDistinct.assert (h : p.IsDistinct) (indexed : p.IsIndexed) (head : Fact) (body : List Fact) :
    (p.assert head body).1.IsDistinct := by
  rw [Program.assert]
  split
  · exact h.of_sublist (by rw [facts_modify p _ (· + 1)])
  next hnone =>
    rw [IsDistinct, Array.toList_push, List.pairwise_append]
    refine ⟨h, List.pairwise_singleton _ _, ?_⟩
    intro c hc d hd recognizes
    obtain rfl := List.mem_singleton.1 hd
    obtain ⟨i, hi⟩ := Array.mem_iff_getElem?.1 (Array.mem_toList_iff.1 hc)
    obtain ⟨j, hj⟩ := indexed.exists_position? hi recognizes
    simp [hnone] at hj

theorem Reachable.isDistinct (h : p.Reachable) : p.IsDistinct := by
  induction h with
  | empty => exact List.Pairwise.nil
  | assert reachable head body ih => exact ih.assert reachable.isIndexed head body
  | retract _ done ih => exact ih.of_sublist (facts_retract done)
  | retractAt _ done ih => exact ih.of_sublist (facts_retractAt done)

/-- A declaration is found at the one clause that it states. -/
theorem Reachable.position?_eq_some_iff (h : p.Reachable) {i : Nat} :
    p.position? head body = some i ↔
      ∃ c, p.clauses[i]? = some c ∧ c.Recognizes (.once head body) := by
  constructor
  · exact recognizes_of_position?
  · rintro ⟨c, hi, recognizes⟩
    obtain ⟨j, hfound⟩ := h.isIndexed.exists_position? hi recognizes
    obtain ⟨d, hj, recognizes'⟩ := recognizes_of_position? hfound
    obtain rfl := h.isDistinct.eq_of_recognizes hi hj (recognizes.trans recognizes'.symm)
    exact hfound

/-- A declaration is not found if no stored clause is the one that it states. -/
theorem Reachable.position?_eq_none_iff (h : p.Reachable) :
    p.position? head body = none ↔
      ∀ c ∈ p.clauses.toList, ¬ c.Recognizes (.once head body) := by
  constructor
  · intro hnone c hc recognizes
    obtain ⟨i, hi⟩ := Array.mem_iff_getElem?.1 (Array.mem_toList_iff.1 hc)
    have hfound : p.position? head body = some i := h.position?_eq_some_iff.2 ⟨c, hi, recognizes⟩
    simp [hnone] at hfound
  · intro hno
    by_contra hsome
    obtain ⟨i, hfound⟩ := Option.ne_none_iff_exists'.1 hsome
    obtain ⟨c, hi, recognizes⟩ := h.position?_eq_some_iff.1 hfound
    exact hno c (Array.mem_toList_iff.2 (Array.mem_of_getElem? hi)) recognizes

/-- A declaration is counted on the clause at a position: an assertion adds one to its count, and a
retraction takes one off and removes the clause with the last one. -/
structure CountsAt (p : Program) (i : Nat) (c : Clause) (head : Fact) (body : List Fact) : Prop where
  asserted : p.assert head body =
    ({ p with clauses := p.clauses.modify i fun c => { c with count := c.count + 1 } },
      .duplicate (c.count + 1))
  size : (p.assert head body).1.size = p.size
  retracted : p.retract head body =
    if c.count ≤ 1 then .ok (p.eraseAt i, .removed)
    else .ok ({ p with clauses := p.clauses.modify i fun d => { d with count := c.count - 1 } },
      .decremented (c.count - 1))

theorem countsAt_of_position? {i : Nat} {c : Clause} (stored : p.clauses[i]? = some c)
    (found : p.position? head body = some i) : p.CountsAt i c head body := by
  constructor
  case asserted =>
    rw [Program.assert, found]
    simp [Array.getElem?_modify, stored]
  case size =>
    rw [Program.assert, found]
    simp [size]
  case retracted =>
    rw [Program.retract, found]
    simp only [stored, Option.map_some, Option.getD_some]
    split
    next hcount => rw [if_pos (by omega)]
    next left hcount =>
      obtain rfl : left = c.count - 1 - 1 := by omega
      have hleft : c.count - 1 - 1 + 1 = c.count - 1 := by omega
      rw [if_neg (by omega), hleft]

end Horn.Program
