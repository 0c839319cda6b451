import Horn.Proofs.Search.Likeness

/-!
Sequences of facts are equal up to the names of variables if their variables correspond.

`Fact.alikeAll_iff` reads the comparison by first occurrences as a correspondence, from which nothing
is left of the order of the facts: `Fact.alikeAll_of_perm`. Renaming one to one is a case of it.
-/

set_option autoImplicit false
set_option relaxedAutoImplicit false

namespace Horn

namespace Correspondence

variable {m : Correspondence}

/-- A fact renamed to names that correspond. -/
theorem ofFact_rename {f : Fact} {change change' : VarName → VarName}
    (names : ∀ name ∈ f.varNames, m.names (change name) (change' name)) :
    m.OfFact (f.rename change) (f.rename change') := by
  refine ⟨rfl, ?_⟩
  rw [Fact.rename, Fact.rename, List.forall₂_map_left_iff, List.forall₂_map_right_iff,
    List.forall₂_same]
  intro a ha
  cases a with
  | lit u => exact .lit (m.identical u)
  | var v =>
    refine .var (names _ (Fact.mem_varNames_of_mem ha)) ?_
    change Option.Rel _ v.condition v.condition
    cases v.condition with
    | none => exact .none
    | some c => exact .some ⟨rfl, m.identical c.operand⟩

/-- The names of a list, and what they are renamed to. -/
def ofRenaming (change : VarName → VarName) (xs : List VarName)
    (injective : ∀ x ∈ xs, ∀ y ∈ xs, change x = change y → x = y) : Correspondence :=
  { identity with
    names := fun x y => x ∈ xs ∧ y = change x
    functional := fun h k => h.2.trans k.2.symm
    injective := fun h k => injective _ h.1 _ k.1 (h.2.symm.trans k.2) }

theorem ofFact_ofRenaming {f : Fact} {change : VarName → VarName} {xs : List VarName}
    (injective : ∀ x ∈ xs, ∀ y ∈ xs, change x = change y → x = y)
    (names : ∀ name ∈ f.varNames, name ∈ xs) :
    (ofRenaming change xs injective).OfFact f (f.rename change) := by
  have hrename : (ofRenaming change xs injective).OfFact (f.rename id) (f.rename change) :=
    ofFact_rename fun name hname => ⟨names name hname, rfl⟩
  rwa [Fact.rename_id] at hrename

theorem ofFact_renamed {f : Fact} {change : VarName → VarName}
    (injective : ∀ x ∈ f.varNames, ∀ y ∈ f.varNames, change x = change y → x = y) :
    (ofRenaming change f.varNames injective).OfFact f (f.rename change) :=
  ofFact_ofRenaming injective fun _ hname => hname

end Correspondence

namespace Fact

/-- A fact equals what it is renamed to. -/
theorem beq_rename {f : Fact} {change : VarName → VarName}
    (injective : ∀ x ∈ f.varNames, ∀ y ∈ f.varNames, change x = change y → x = y) :
    (f == f.rename change) = true :=
  (Correspondence.ofFact_renamed injective).beq

open Search (Goal looksLike)

variable {fs gs : List Fact}

/-- Facts are compared as open goals are. -/
theorem looksLike_pending (fs gs : List Fact) :
    looksLike (fs.map (Goal.pending 0)) (gs.map (Goal.pending 0)) = alikeAll fs gs := by
  have hshape : (fs.map (Goal.pending 0)).isEqv (gs.map (Goal.pending 0)) Goal.sameShape =
      fs.isEqv gs sameShape := by
    induction fs generalizing gs with
    | nil => cases gs <;> rfl
    | cons f fs ih =>
      cases gs with
      | nil => rfl
      | cons g gs =>
        rw [List.map_cons, List.map_cons, List.isEqv, List.isEqv, ih]
        rfl
  have hoccurring (fs : List Fact) :
      Search.occurring (fs.map (Goal.pending 0)) = fs.flatMap varNames := by
    rw [Search.occurring, List.flatMap_map]
    rfl
  have hnumbers : numbers fs = numbers gs ↔
      Search.numbering (fs.map (Goal.pending 0)) = Search.numbering (gs.map (Goal.pending 0)) := by
    rw [Search.numbering, Search.numbering, hoccurring, hoccurring, numbers_eq, numbers_eq,
      ← Array.toList_inj, Numbering.toList_ofOccurrences, Numbering.toList_ofOccurrences]
  rw [Bool.eq_iff_iff, looksLike, alikeAll, Bool.and_eq_true, Bool.and_eq_true, beq_iff_eq,
    beq_iff_eq, hshape, hnumbers]

private theorem ofSolution_pending_iff {m : Correspondence} :
    m.OfSolution (fs.map (Goal.pending 0)) (gs.map (Goal.pending 0)) ↔
      List.Forall₂ m.OfFact fs gs := by
  change List.Forall₂ m.OfGoal _ _ ↔ _
  rw [List.forall₂_map_left_iff, List.forall₂_map_right_iff]
  constructor
  · intro h
    exact h.imp fun _ _ hgoal => hgoal.fact
  · intro h
    exact h.imp fun _ _ hfact => ⟨rfl, hfact⟩

/-- Sequences are alike if and only if the variables at the same places correspond. -/
theorem alikeAll_iff :
    alikeAll fs gs = true ↔ ∃ m : Correspondence, List.Forall₂ m.OfFact fs gs := by
  rw [← looksLike_pending]
  constructor
  · intro h
    obtain ⟨m, hsolution, -, -⟩ := Correspondence.exists_of_looksLike h
    exact ⟨m, ofSolution_pending_iff.1 hsolution⟩
  · rintro ⟨m, hfacts⟩
    exact (ofSolution_pending_iff.2 hfacts).looksLike

private theorem forall₂_map_iff {R : Fact → Fact → Prop} {pairs : List (Fact × Fact)} :
    List.Forall₂ R (pairs.map Prod.fst) (pairs.map Prod.snd) ↔ ∀ p ∈ pairs, R p.1 p.2 := by
  rw [List.forall₂_map_left_iff, List.forall₂_map_right_iff, List.forall₂_same]

/-- Sequences that are alike stay so if they are permuted together. -/
theorem alikeAll_of_perm {pairs pairs' : List (Fact × Fact)} (perm : pairs.Perm pairs')
    (h : alikeAll (pairs.map Prod.fst) (pairs.map Prod.snd) = true) :
    alikeAll (pairs'.map Prod.fst) (pairs'.map Prod.snd) = true := by
  obtain ⟨m, hfacts⟩ := alikeAll_iff.1 h
  rw [forall₂_map_iff] at hfacts
  refine alikeAll_iff.2 ⟨m, forall₂_map_iff.2 ?_⟩
  intro p hp
  exact hfacts p (perm.mem_iff.2 hp)

/-- A sequence is alike what it is renamed to one to one. -/
theorem alikeAll_rename {change : VarName → VarName}
    (injective : ∀ x ∈ fs.flatMap varNames, ∀ y ∈ fs.flatMap varNames, change x = change y → x = y) :
    alikeAll fs (fs.map (rename change)) = true := by
  refine alikeAll_iff.2 ⟨.ofRenaming change _ injective, ?_⟩
  rw [List.forall₂_map_right_iff, List.forall₂_same]
  intro f hf
  exact Correspondence.ofFact_ofRenaming injective fun name hname =>
    List.mem_flatMap.2 ⟨f, hf, hname⟩

end Fact

end Horn
