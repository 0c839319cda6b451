import Mathlib.Data.Set.Function
import Mathlib.Logic.Equiv.Basic
import Horn.Proofs.Fact.Alpha

/-!
Sequences of facts that differ in the names of variables only.

Two sequences are compared by numbering the variables of each. What the comparison decides is whether
one renaming, one to one between the names that occur in the first sequence and those in the second,
turns the first into the second place by place: `Fact.alikeAll_iff_renames`. That is an equivalence, and
it does not change if either side is renamed one to one.
-/

set_option autoImplicit false
set_option relaxedAutoImplicit false

namespace Horn

/-- Equal literals, or the same variable with equal conditions. -/
inductive Atom.Equal : Atom → Atom → Prop
  | var {name : VarName} {c d : Option Condition} (condition : (c == d) = true) :
      Atom.Equal (.var ⟨name, c⟩) (.var ⟨name, d⟩)
  | lit {u v : Literal} (value : (u == v) = true) : Atom.Equal (.lit u) (.lit v)

/-- The same functor, and as many arguments, which are equal place by place. -/
structure Fact.Equal (f g : Fact) : Prop where
  functor : f.functor = g.functor
  args : List.Forall₂ Atom.Equal f.args g.args

/-- The variable names that occur in a sequence of facts. -/
def Fact.nameSet (fs : List Fact) : Set VarName :=
  {name | name ∈ fs.flatMap Fact.varNames}

/-- A change of names is one to one between the names of two sequences, which are as long as each other,
and it turns the first into the second place by place. -/
structure Fact.Renames (change : VarName → VarName) (fs gs : List Fact) : Prop where
  bijective : Set.BijOn change (nameSet fs) (nameSet gs)
  facts : List.Forall₂ Fact.Equal (fs.map (Fact.rename change)) gs

namespace Correspondence

/-- Every name corresponds to itself, and literals do that are equal. -/
def equality : Correspondence :=
  { identity with
    literals := fun u v => (u == v) = true
    identical := Literal.same_self
    equal := fun h => h }

theorem ofAtom_of_equal {a b : Atom} (h : a.Equal b) : equality.OfAtom a b := by
  cases h with
  | lit value => exact .lit value
  | @var name c d condition =>
    refine .var rfl ?_
    change Option.Rel _ c d
    cases c <;> cases d
    · exact .none
    · simp at condition
    · simp at condition
    · obtain ⟨operator, operand⟩ := Condition.beq_iff.1 condition
      exact .some ⟨operator, operand⟩

variable {m : Correspondence}

/-- Atoms that correspond are equal once the first is renamed as its correspondence says. -/
theorem OfAtom.equal_rename {a b : Atom} (h : m.OfAtom a b) {change : VarName → VarName}
    (names : ∀ x y, m.names x y → change x = y) : (a.rename change).Equal b := by
  cases h with
  | lit literals => exact .lit (m.equal literals)
  | @var v w hname hcondition =>
    obtain ⟨x, c⟩ := v
    obtain ⟨y, d⟩ := w
    obtain rfl : change x = y := names x y hname
    refine .var ?_
    change Option.Rel _ c d at hcondition
    cases hcondition with
    | none => rfl
    | some h => exact Condition.beq_iff.2 ⟨h.operator, m.equal h.operand⟩

/-- A correspondence is the graph of a change of names, other names aside. -/
theorem exists_change (m : Correspondence) :
    ∃ change : VarName → VarName, ∀ x y, m.names x y → change x = y := by
  classical
  refine ⟨fun x => if h : ∃ y, m.names x y then h.choose else x, fun x y hxy => ?_⟩
  have h : ∃ y, m.names x y := ⟨y, hxy⟩
  simp only [dif_pos h]
  exact m.functional h.choose_spec hxy

end Correspondence

namespace Fact

variable {fs gs : List Fact} {change : VarName → VarName}

theorem exists_renames_of_alikeAll (h : alikeAll fs gs = true) :
    ∃ change, Renames change fs gs := by
  obtain ⟨m, hfacts⟩ := alikeAll_iff.1 h
  have hnames : List.Forall₂ m.names (fs.flatMap varNames) (gs.flatMap varNames) :=
    List.rel_flatMap hfacts fun _ _ h => h.varNames
  obtain ⟨change, hchange⟩ := m.exists_change
  have hleft : ∀ x ∈ nameSet fs, ∃ y ∈ nameSet gs, m.names x y := by
    intro x hx
    obtain ⟨i, hi, rfl⟩ := List.mem_iff_getElem.1 hx
    have hi' : i < (gs.flatMap varNames).length := hnames.length_eq ▸ hi
    exact ⟨_, List.getElem_mem hi', hnames.get hi hi'⟩
  have hright : ∀ y ∈ nameSet gs, ∃ x ∈ nameSet fs, m.names x y := by
    intro y hy
    obtain ⟨i, hi, rfl⟩ := List.mem_iff_getElem.1 hy
    have hi' : i < (fs.flatMap varNames).length := hnames.length_eq.symm ▸ hi
    exact ⟨_, List.getElem_mem hi', hnames.get hi' hi⟩
  refine ⟨change, ⟨?_, ?_, ?_⟩, ?_⟩
  · intro x hx
    obtain ⟨y, hy, hxy⟩ := hleft x hx
    rwa [hchange x y hxy]
  · intro x hx x' hx' heq
    obtain ⟨y, -, hxy⟩ := hleft x hx
    obtain ⟨y', -, hxy'⟩ := hleft x' hx'
    rw [hchange x y hxy, hchange x' y' hxy'] at heq
    subst heq
    exact m.injective hxy hxy'
  · intro y hy
    obtain ⟨x, hx, hxy⟩ := hright y hy
    exact ⟨x, hx, hchange x y hxy⟩
  · rw [List.forall₂_map_left_iff]
    refine hfacts.imp fun f g hfg => ⟨hfg.functor, ?_⟩
    rw [rename, List.forall₂_map_left_iff]
    exact hfg.args.imp fun _ _ ha => ha.equal_rename hchange

theorem Renames.alikeAll (h : Renames change fs gs) : alikeAll fs gs = true := by
  refine alikeAll_trans (alikeAll_rename h.bijective.injOn) (alikeAll_iff.2 ⟨.equality, ?_⟩)
  exact h.facts.imp fun _ _ hfg =>
    ⟨hfg.functor, hfg.args.imp fun _ _ => Correspondence.ofAtom_of_equal⟩

/-- What the comparison of two sequences decides. -/
theorem alikeAll_iff_renames : alikeAll fs gs = true ↔ ∃ change, Renames change fs gs :=
  ⟨exists_renames_of_alikeAll, fun ⟨_, h⟩ => h.alikeAll⟩

/-- Two sequences are alike if and only if one renaming turns the first into the second, which is an
equivalence, as it is for single facts, and neither side's names matter. -/
theorem alikeAll_decides_renaming (fs gs : List Fact) :
    (alikeAll fs gs = true ↔ ∃ change, Renames change fs gs) ∧
      (∀ change, Set.InjOn change (nameSet fs) →
        alikeAll (fs.map (rename change)) gs = alikeAll fs gs) ∧
      (∀ change, Set.InjOn change (nameSet gs) →
        alikeAll fs (gs.map (rename change)) = alikeAll fs gs) ∧
      Equivalence (fun fs gs : List Fact => alikeAll fs gs = true) ∧
      (∀ f g : Fact, (f == g) = alikeAll [f] [g]) ∧
      Equivalence (fun f g : Fact => (f == g) = true) := by
  refine ⟨alikeAll_iff_renames, fun change injective => ?_, fun change injective => ?_,
    ⟨alikeAll_self, alikeAll_symm, alikeAll_trans⟩, fun _ _ => rfl,
    ⟨fun _ => BEq.rfl, BEq.symm, BEq.trans⟩⟩
  · have hrenamed : alikeAll fs (fs.map (rename change)) = true := alikeAll_rename injective
    rw [Bool.eq_iff_iff]
    exact ⟨alikeAll_trans hrenamed, alikeAll_trans (alikeAll_symm hrenamed)⟩
  · have hrenamed : alikeAll gs (gs.map (rename change)) = true := alikeAll_rename injective
    rw [Bool.eq_iff_iff]
    exact ⟨fun h => alikeAll_trans h (alikeAll_symm hrenamed), fun h => alikeAll_trans h hrenamed⟩

private def linked (x y : VarName) : List Fact :=
  [⟨"p", [.var ⟨x, none⟩, .var ⟨y, some ⟨.gt, .integer 3⟩⟩]⟩, ⟨"q", [.var ⟨y, none⟩, .lit (.float 0.0)]⟩]

/-- `p(X, Y > 3), q(Y, 0.0)` stays alike itself if its two variables change places. -/
theorem alikeAll_decides_renaming_swapped :
    Set.InjOn (Equiv.swap (VarName.named "X") (.named "Y")) (nameSet (linked (.named "X") (.named "Y"))) ∧
      alikeAll (linked (.named "Y") (.named "X")) (linked (.named "X") (.named "Y")) = true := by
  have injective := (Equiv.swap (VarName.named "X") (.named "Y")).injective.injOn
    (s := nameSet (linked (.named "X") (.named "Y")))
  obtain ⟨-, hleft, -⟩ :=
    alikeAll_decides_renaming (linked (.named "X") (.named "Y")) (linked (.named "X") (.named "Y"))
  exact ⟨injective, (hleft _ injective).trans (alikeAll_self _)⟩

end Fact

end Horn
