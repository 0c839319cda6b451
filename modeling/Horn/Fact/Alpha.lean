import Horn.Elementwise
import Horn.Fact.Numbering

/-!
Equality of facts up to the names of variables.

Two sequences of facts are alike if they have the same shape, which leaves names out, and if
numbering the variables of each by first occurrence, across the whole sequence, gives the same
number at every occurrence. Both parts are equivalences, so being alike is one.
-/

set_option autoImplicit false
set_option relaxedAutoImplicit false

namespace Horn

/-- Equal conditions, or none on either side. -/
def Variable.sameCondition (v w : Variable) : Bool :=
  match v.condition, w.condition with
  | none, none => true
  | some c, some d => c == d
  | _, _ => false

namespace Atom

/-- Equal literals, or variables with the same condition. -/
def sameShape : Atom → Atom → Bool
  | .lit a, .lit b => a == b
  | .var v, .var w => v.sameCondition w
  | _, _ => false

/-- A hash of what `sameShape` compares. -/
def shapeHash : Atom → UInt64
  | .lit a => mixHash 3 (hash a)
  | .var v =>
    match v.condition with
    | none => 5
    | some c => mixHash 7 (hash c)

theorem sameShape_self (a : Atom) : a.sameShape a = true := by
  obtain ⟨_, _ | _⟩ | _ := a <;> simp [sameShape, Variable.sameCondition]

theorem sameShape_symm (a b : Atom) (h : a.sameShape b = true) : b.sameShape a = true := by
  obtain ⟨_, _ | _⟩ | _ := a <;> obtain ⟨_, _ | _⟩ | _ := b <;>
    simp_all [sameShape, Variable.sameCondition, BEq.comm]

theorem sameShape_trans (a b c : Atom) (h : a.sameShape b = true) (k : b.sameShape c = true) :
    a.sameShape c = true := by
  obtain ⟨_, _ | _⟩ | _ := a <;> obtain ⟨_, _ | _⟩ | _ := b <;> obtain ⟨_, _ | _⟩ | _ := c <;>
    simp_all only [sameShape, Variable.sameCondition, Bool.false_eq_true] <;> exact BEq.trans h k

theorem shapeHash_eq (a b : Atom) (h : a.sameShape b = true) : a.shapeHash = b.shapeHash := by
  obtain ⟨_, _ | _⟩ | _ := a <;> obtain ⟨_, _ | _⟩ | _ := b <;>
    simp_all only [sameShape, Variable.sameCondition, shapeHash, Bool.false_eq_true] <;>
    rw [hash_eq h]

end Atom

namespace Fact

/-- The same functor, and arguments of the same shape. -/
def sameShape (f g : Fact) : Bool :=
  f.functor == g.functor && f.args.isEqv g.args Atom.sameShape

/-- A hash of what `sameShape` compares. -/
def shapeHash (f : Fact) : UInt64 :=
  f.args.foldl (fun code a => mixHash code a.shapeHash) (hash f.functor)

theorem sameShape_self (f : Fact) : f.sameShape f = true := by
  simp [sameShape, Elementwise.refl Atom.sameShape_self]

theorem sameShape_symm (f g : Fact) (h : f.sameShape g = true) : g.sameShape f = true := by
  simp only [sameShape, Bool.and_eq_true, beq_iff_eq] at h ⊢
  exact ⟨h.1.symm, Elementwise.symm Atom.sameShape_symm h.2⟩

theorem sameShape_trans (f g k : Fact) (h : f.sameShape g = true) (l : g.sameShape k = true) :
    f.sameShape k = true := by
  simp only [sameShape, Bool.and_eq_true, beq_iff_eq] at h l ⊢
  exact ⟨h.1.trans l.1, Elementwise.trans Atom.sameShape_trans h.2 l.2⟩

theorem shapeHash_eq (f g : Fact) (h : f.sameShape g = true) : f.shapeHash = g.shapeHash := by
  simp only [sameShape, Bool.and_eq_true, beq_iff_eq] at h
  rw [shapeHash, shapeHash, h.1]
  exact Elementwise.foldl_eq (fun _ a b k => by rw [Atom.shapeHash_eq a b k]) h.2 _

/-- The numbers of the occurrences of variables in a sequence of facts. -/
def numbers (fs : List Fact) : Array Nat :=
  (fs.foldl Numbering.Count.visitFact .empty).numbers

theorem numbers_eq (fs : List Fact) :
    numbers fs = Numbering.ofOccurrences (fs.flatMap varNames) := by
  rw [numbers, Numbering.Count.foldl_visitFact]
  rfl

/-- Whether two sequences of facts are equal up to the names of variables, where a name denotes one
variable throughout a sequence. -/
def alikeAll (fs gs : List Fact) : Bool :=
  fs.isEqv gs sameShape && numbers fs == numbers gs

theorem alikeAll_self (fs : List Fact) : alikeAll fs fs = true := by
  simp [alikeAll, Elementwise.refl sameShape_self]

theorem alikeAll_symm {fs gs : List Fact} (h : alikeAll fs gs = true) : alikeAll gs fs = true := by
  simp only [alikeAll, Bool.and_eq_true, beq_iff_eq] at h ⊢
  exact ⟨Elementwise.symm sameShape_symm h.1, h.2.symm⟩

theorem alikeAll_trans {fs gs hs : List Fact} (h : alikeAll fs gs = true)
    (k : alikeAll gs hs = true) : alikeAll fs hs = true := by
  simp only [alikeAll, Bool.and_eq_true, beq_iff_eq] at h k ⊢
  exact ⟨Elementwise.trans sameShape_trans h.1 k.1, h.2.trans k.2⟩

/-- Whether two facts are equal up to the names of variables. -/
def alike (f g : Fact) : Bool :=
  alikeAll [f] [g]

instance : BEq Fact := ⟨alike⟩

instance : EquivBEq Fact where
  rfl := alikeAll_self _
  symm := alikeAll_symm
  trans := alikeAll_trans

end Fact

end Horn
