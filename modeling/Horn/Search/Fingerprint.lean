import Horn.Fact.Alpha
import Horn.Search.Solution

/-!
Fingerprints: what a partial solution looks like once variable names are disregarded.

A fingerprint holds the goals, which are compared by their shapes, and the numbers of the
occurrences of variables, counted by first occurrence through the whole solution. Two solutions that
differ in the names of variables only have equal fingerprints.
-/

set_option autoImplicit false
set_option relaxedAutoImplicit false

namespace Horn.Search

namespace Goal

/-- Facts of the same shape, both discharged or both open. -/
def sameShape (g h : Goal) : Bool :=
  g.resolved == h.resolved && g.fact.sameShape h.fact

/-- A hash of what `sameShape` compares. -/
def shapeHash (g : Goal) : UInt64 :=
  if g.resolved then mixHash 3 g.fact.shapeHash else g.fact.shapeHash

theorem sameShape_self (g : Goal) : g.sameShape g = true := by
  simp [sameShape, Fact.sameShape_self]

theorem sameShape_symm (g h : Goal) (k : g.sameShape h = true) : h.sameShape g = true := by
  simp only [sameShape, Bool.and_eq_true, beq_iff_eq] at k ⊢
  exact ⟨k.1.symm, Fact.sameShape_symm _ _ k.2⟩

theorem sameShape_trans (f g h : Goal) (k : f.sameShape g = true) (l : g.sameShape h = true) :
    f.sameShape h = true := by
  simp only [sameShape, Bool.and_eq_true, beq_iff_eq] at k l ⊢
  exact ⟨k.1.trans l.1, Fact.sameShape_trans _ _ _ k.2 l.2⟩

theorem shapeHash_eq (g h : Goal) (k : g.sameShape h = true) : g.shapeHash = h.shapeHash := by
  simp only [sameShape, Bool.and_eq_true, beq_iff_eq] at k
  rw [shapeHash, shapeHash, k.1, Fact.shapeHash_eq _ _ k.2]

end Goal

/-- The goals of a solution, of which the shapes count, and the numbers of their variables. -/
structure Fingerprint where
  goals : Solution
  numbers : Array Nat

namespace Fingerprint

/-- Goals of the same shapes with the same numbers. -/
def same (a b : Fingerprint) : Bool :=
  a.numbers == b.numbers && a.goals.isEqv b.goals Goal.sameShape

instance : BEq Fingerprint := ⟨same⟩

/-- A hash that agrees with equality. -/
def hashCode (a : Fingerprint) : UInt64 :=
  a.goals.foldl (fun code g => mixHash code g.shapeHash) (hash a.numbers)

instance : Hashable Fingerprint := ⟨hashCode⟩

theorem beq_iff {a b : Fingerprint} :
    (a == b) = true ↔ a.numbers = b.numbers ∧ a.goals.isEqv b.goals Goal.sameShape = true := by
  rw [show (a == b) = a.same b from rfl, same, Bool.and_eq_true, beq_iff_eq]

instance : EquivBEq Fingerprint where
  rfl := beq_iff.2 ⟨rfl, Elementwise.refl Goal.sameShape_self _⟩
  symm h := beq_iff.2 ⟨(beq_iff.1 h).1.symm, Elementwise.symm Goal.sameShape_symm (beq_iff.1 h).2⟩
  trans h k :=
    beq_iff.2 ⟨(beq_iff.1 h).1.trans (beq_iff.1 k).1,
      Elementwise.trans Goal.sameShape_trans (beq_iff.1 h).2 (beq_iff.1 k).2⟩

instance : LawfulHashable Fingerprint where
  hash_eq a b h := by
    obtain ⟨numbers, goals⟩ := beq_iff.1 h
    show a.hashCode = b.hashCode
    rw [hashCode, hashCode, numbers]
    exact Elementwise.foldl_eq (fun _ f g k => by rw [Goal.shapeHash_eq f g k]) goals _

end Fingerprint

/-- The fingerprint of a solution. -/
def fingerprint (solution : Solution) : Fingerprint :=
  ⟨solution, (solution.foldl (fun c g => c.visitFact g.fact) Numbering.Count.empty).numbers⟩

theorem numbers_fingerprint (solution : Solution) :
    (fingerprint solution).numbers = Fact.numbers (solution.map Goal.fact) := by
  rw [fingerprint, Fact.numbers, List.foldl_map]

end Horn.Search
