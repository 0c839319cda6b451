import Horn.Proofs.Program.Recognition

/-!
Clauses that count as one are equal up to names and order.

If a clause recognizes another one, its variables can be renamed one to one so that it has the head and,
in some order, the goals of the other one: `Clause.Recognizes.isVariant`. Literals are compared by their
equality, as everywhere.
-/

set_option autoImplicit false
set_option relaxedAutoImplicit false

namespace Horn

/-- A fact is another one with its variables renamed: it has the same functor, equal literals, and the
renamed variables with equal conditions. -/
structure Fact.IsRenaming (change : VarName → VarName) (f g : Fact) : Prop where
  shape : f.sameShape g = true
  names : g.varNames = f.varNames.map change

/-- Names that correspond can be renamed into each other. -/
theorem Correspondence.exists_renaming (m : Correspondence) :
    ∃ change : VarName → VarName, ∀ x y, m.names x y → change x = y := by
  classical
  refine ⟨fun x => if h : ∃ y, m.names x y then h.choose else x, fun x y hxy => ?_⟩
  have hex : ∃ y, m.names x y := ⟨y, hxy⟩
  simp only [dif_pos hex]
  exact m.functional hex.choose_spec hxy

namespace Clause

variable {c d : Clause}

/-- The second clause is the first one with its variables renamed one to one and its goals put in
another order. -/
def IsVariant (c d : Clause) : Prop :=
  ∃ change : VarName → VarName,
    (∀ x ∈ c.facts.flatMap Fact.varNames, ∀ y ∈ c.facts.flatMap Fact.varNames,
      change x = change y → x = y) ∧
    ∃ goals : List Fact, goals.Perm d.body ∧
      List.Forall₂ (Fact.IsRenaming change) c.facts (d.head :: goals)

/-- Clauses are recognized only if they are equal up to the names of variables and the order of the
goals. -/
theorem Recognizes.isVariant (h : c.Recognizes d) : c.IsVariant d := by
  obtain ⟨goals, hshapes, hfilter, halike⟩ := recognizes_iff.1 h
  have hperm : goals.Perm d.body :=
    arrange_perm (arrange_eq_some_iff.2 ⟨hshapes, hfilter⟩ :
      arrange c.headNames d.headNames c.body d.body = some goals)
  obtain ⟨m, hfacts⟩ := Fact.alikeAll_iff.1 halike
  obtain ⟨change, hchange⟩ := m.exists_renaming
  refine ⟨change, ?_, goals, hperm, ?_⟩
  · have hnames : List.Forall₂ m.names (c.facts.flatMap Fact.varNames)
        ((d.head :: goals).flatMap Fact.varNames) :=
      List.rel_flatMap hfacts fun _ _ hfact => hfact.varNames
    have hpartner : ∀ x ∈ c.facts.flatMap Fact.varNames, ∃ z, m.names x z := by
      intro x hx
      obtain ⟨i, hi, rfl⟩ := List.mem_iff_getElem.1 hx
      exact ⟨_, hnames.get hi (hnames.length_eq ▸ hi)⟩
    intro x hx y hy heq
    obtain ⟨z, hz⟩ := hpartner x hx
    obtain ⟨z', hz'⟩ := hpartner y hy
    rw [hchange x z hz, hchange y z' hz'] at heq
    exact m.injective hz (heq ▸ hz')
  · refine hfacts.imp fun f g hfact => ⟨hfact.sameShape, ?_⟩
    rw [← List.forall₂_eq_eq_eq, List.forall₂_map_right_iff]
    exact hfact.varNames.flip.imp fun y x hxy => (hchange x y hxy).symm

end Clause

end Horn
