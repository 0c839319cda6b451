import Horn.Proofs.Search.Listing
import Horn.Proofs.Unification.Correspondence
import Horn.Proofs.Unification.Names

/-!
Solutions that look alike are those that correspond.

If two solutions have equal fingerprints, the variables at the same places of both form a
correspondence: `Correspondence.exists_of_looksLike`. Conversely `Correspondence.OfSolution.looksLike`
says that solutions which correspond have equal fingerprints.
-/

set_option autoImplicit false
set_option relaxedAutoImplicit false

namespace Horn

namespace Correspondence

variable {m : Correspondence}

theorem mem_iff {xs ys : List VarName} (h : List.Forall₂ m.names xs ys) {x y : VarName}
    (hxy : m.names x y) : x ∈ xs ↔ y ∈ ys := by
  induction h with
  | nil => simp
  | cons first _ ih => rw [List.mem_cons, List.mem_cons, ih, names_eq_iff hxy first]

private theorem idxOf_eq {xs ys : List VarName} (h : List.Forall₂ m.names xs ys) {x y : VarName}
    (hxy : m.names x y) : xs.idxOf x = ys.idxOf y := by
  induction h with
  | nil => rfl
  | cons first _ ih =>
    rw [List.idxOf_cons, List.idxOf_cons, ih]
    simp only [beq_eq_decide, names_eq_iff first hxy]

private theorem foldl_meet {xs ys : List VarName} (h : List.Forall₂ m.names xs ys)
    {seen seen' : Numbering} (hseen : List.Forall₂ m.names seen seen') :
    List.Forall₂ m.names (xs.foldl Numbering.meet seen) (ys.foldl Numbering.meet seen') := by
  refine List.rel_foldl (fun seen seen' hseen x y hxy => ?_) hseen h
  rw [Numbering.meet, Numbering.meet]
  simp only [mem_iff hseen hxy]
  split
  · exact hseen
  · exact List.rel_append hseen (.cons hxy .nil)

/-- Names that correspond place by place are met in orders that correspond. -/
theorem forall₂_ofNames {xs ys : List VarName} (h : List.Forall₂ m.names xs ys) :
    List.Forall₂ m.names (Numbering.ofNames xs) (Numbering.ofNames ys) :=
  foldl_meet h .nil

/-- If names correspond place by place, those that correspond get the same number. -/
theorem number_eq {xs ys : List VarName} (h : List.Forall₂ m.names xs ys) {x y : VarName}
    (hxy : m.names x y) : (Numbering.ofNames xs).number x = (Numbering.ofNames ys).number y :=
  idxOf_eq (forall₂_ofNames h) hxy

/-- Names that correspond place by place are numbered alike. -/
theorem map_number_eq {xs ys : List VarName} (h : List.Forall₂ m.names xs ys) :
    xs.map (Numbering.ofNames xs).number = ys.map (Numbering.ofNames ys).number := by
  have hnumbers : List.Forall₂ Eq (xs.map (Numbering.ofNames xs).number)
      (ys.map (Numbering.ofNames ys).number) :=
    List.rel_map (fun _ _ hxy => number_eq h hxy) h
  rwa [List.forall₂_eq_eq_eq] at hnumbers

/-- Goals that are both open or both discharged, with facts that correspond. -/
structure OfGoal (m : Correspondence) (g h : Search.Goal) : Prop where
  resolved : g.resolved = h.resolved
  fact : m.OfFact g.fact h.fact

/-- Solutions that correspond goal by goal. -/
abbrev OfSolution (m : Correspondence) : Search.Solution → Search.Solution → Prop :=
  List.Forall₂ m.OfGoal

theorem OfFact.varNames {f g : Fact} (h : m.OfFact f g) :
    List.Forall₂ m.names f.varNames g.varNames := by
  rw [Fact.varNames, Fact.varNames, Fact.occurrences, Fact.occurrences, List.map_filterMap,
    List.map_filterMap]
  refine List.rel_filterMap (fun a a' ha => ?_) h.args
  cases ha with
  | lit _ => exact .none
  | var names _ => exact .some names

/-- The open goals of solutions that correspond do so. -/
theorem OfSolution.filter_open {a b : Search.Solution} (h : m.OfSolution a b) :
    m.OfSolution (a.filter fun g => !g.resolved) (b.filter fun g => !g.resolved) := by
  refine List.rel_filter (fun g g' hg => ?_) h
  simp [hg.resolved]

/-- Every goal on the right stands where there is one on the left. -/
theorem OfSolution.exists_left {a b : Search.Solution} (h : m.OfSolution a b) {g' : Search.Goal}
    (hg : g' ∈ b) : ∃ g ∈ a, m.OfGoal g g' := by
  induction h with
  | nil => exact absurd hg List.not_mem_nil
  | cons first _ ih =>
    rcases List.mem_cons.1 hg with rfl | hg
    · exact ⟨_, List.mem_cons_self, first⟩
    · obtain ⟨g, hmem, hrest⟩ := ih hg
      exact ⟨g, List.mem_cons_of_mem _ hmem, hrest⟩

theorem OfSolution.occurring {a b : Search.Solution} (h : m.OfSolution a b) :
    List.Forall₂ m.names (Search.occurring a) (Search.occurring b) :=
  List.rel_flatMap h fun _ _ hg => hg.fact.varNames

private theorem isEqv_of_forall₂ {α : Type} {R : α → α → Prop} {related : α → α → Bool}
    (h : ∀ a b, R a b → related a b = true) {as bs : List α} (hab : List.Forall₂ R as bs) :
    as.isEqv bs related = true := by
  induction hab with
  | nil => rfl
  | cons first _ ih => simp [List.isEqv, h _ _ first, ih]

theorem OfAtom.sameShape {a b : Atom} (h : m.OfAtom a b) : a.sameShape b = true := by
  cases h with
  | lit literals => exact m.equal literals
  | @var v w _ conditions =>
    rw [Atom.sameShape, Variable.sameCondition]
    generalize v.condition = condition at conditions
    generalize w.condition = condition' at conditions
    cases conditions with
    | none => rfl
    | some h => exact Condition.beq_iff.2 ⟨h.operator, m.equal h.operand⟩

theorem OfFact.sameShape {f g : Fact} (h : m.OfFact f g) : f.sameShape g = true := by
  rw [Fact.sameShape, h.functor]
  simpa using isEqv_of_forall₂ (fun _ _ => OfAtom.sameShape) h.args

theorem OfGoal.sameShape {g h : Search.Goal} (hgh : m.OfGoal g h) : g.sameShape h = true := by
  rw [Search.Goal.sameShape, hgh.resolved, hgh.fact.sameShape]
  simp

/-- Facts that correspond are equal. -/
theorem OfFact.beq {f g : Fact} (h : m.OfFact f g) : (f == g) = true := by
  have hnumbers : Fact.numbers [f] = Fact.numbers [g] := by
    rw [Fact.numbers_eq, Fact.numbers_eq, ← Array.toList_inj, Numbering.toList_ofOccurrences,
      Numbering.toList_ofOccurrences]
    simpa using map_number_eq h.varNames
  change Fact.alikeAll [f] [g] = true
  simp [Fact.alikeAll, hnumbers, List.isEqv, h.sameShape]

/-- Solutions that correspond look alike. -/
theorem OfSolution.looksLike {a b : Search.Solution} (h : m.OfSolution a b) :
    Search.looksLike a b = true := by
  rw [Search.looksLike, Search.numbering, Search.numbering, map_number_eq h.occurring]
  simpa using isEqv_of_forall₂ (fun _ _ => OfGoal.sameShape) h

/-- Every name corresponds to itself, and every literal. -/
def identity : Correspondence where
  names := Eq
  literals := Eq
  functional h k := h.symm.trans k
  injective h k := h.trans k.symm
  identical _ := rfl
  equal := by
    rintro u _ rfl
    exact BEq.rfl

theorem OfSolution.identity (a : Search.Solution) : Correspondence.identity.OfSolution a a := by
  refine List.forall₂_same.2 fun g _ => ⟨rfl, rfl, List.forall₂_same.2 fun arg _ => ?_⟩
  cases arg with
  | lit _ => exact .lit rfl
  | var v =>
    refine .var rfl ?_
    cases v.condition with
    | none => exact .none
    | some _ => exact .some ⟨rfl, rfl⟩

/-! ### From looks to a correspondence -/

/-- The correspondence of the names at the same places of two lists that are numbered alike, with
equality of literals. -/
def ofPlaces (xs ys : List VarName)
    (h : xs.map (Numbering.ofNames xs).number = ys.map (Numbering.ofNames ys).number) :
    Correspondence where
  names x y := ∃ i : Nat, xs[i]? = some x ∧ ys[i]? = some y
  literals u v := (u == v) = true
  functional := by
    rintro x y z ⟨i, hxi, hyi⟩ ⟨j, hxj, hzj⟩
    have hi := congrArg (·[i]?) h
    have hj := congrArg (·[j]?) h
    simp only [List.getElem?_map, hxi, hyi, hxj, hzj, Option.map_some, Option.some.injEq] at hi hj
    exact (List.idxOf_inj (Numbering.mem_ofNames.2 (List.mem_of_getElem? hyi))).1 (hi.symm.trans hj)
  injective := by
    rintro x y z ⟨i, hxi, hzi⟩ ⟨j, hyj, hzj⟩
    have hi := congrArg (·[i]?) h
    have hj := congrArg (·[j]?) h
    simp only [List.getElem?_map, hxi, hzi, hyj, hzj, Option.map_some, Option.some.injEq] at hi hj
    exact (List.idxOf_inj (Numbering.mem_ofNames.2 (List.mem_of_getElem? hxi))).1 (hi.trans hj.symm)
  identical _ := BEq.rfl
  equal := id

private theorem forall₂_places {xs ys : List VarName}
    (h : xs.map (Numbering.ofNames xs).number = ys.map (Numbering.ofNames ys).number) :
    List.Forall₂ (ofPlaces xs ys h).names xs ys := by
  have hlength : xs.length = ys.length := by simpa using congrArg List.length h
  refine List.forall₂_iff_get.2 ⟨hlength, fun i hi hj => ⟨i, ?_, ?_⟩⟩ <;> simp [hi, hj]

private theorem ofAtoms_of_shape {as bs : List Atom}
    (literals : ∀ u v, (u == v) = true → m.literals u v)
    (shape : as.isEqv bs Atom.sameShape = true)
    (names : List.Forall₂ m.names ((as.filterMap Atom.occurrence?).map Variable.name)
      ((bs.filterMap Atom.occurrence?).map Variable.name)) :
    List.Forall₂ m.OfAtom as bs := by
  induction as generalizing bs with
  | nil => cases bs <;> simp_all [List.isEqv]
  | cons a as ih =>
    cases bs with
    | nil => simp [List.isEqv] at shape
    | cons b bs =>
      simp only [List.isEqv, Bool.and_eq_true] at shape
      obtain ⟨hab, hrest⟩ := shape
      cases a with
      | lit u =>
        cases b with
        | lit v => exact .cons (.lit (literals u v hab)) (ih hrest names)
        | var w => simp [Atom.sameShape] at hab
      | var v =>
        cases b with
        | lit v => simp [Atom.sameShape] at hab
        | var w =>
          simp only [Atom.occurrence?, List.filterMap_cons, List.map_cons, List.forall₂_cons] at names
          refine .cons (.var names.1 ?_) (ih hrest names.2)
          rw [Atom.sameShape, Variable.sameCondition] at hab
          generalize v.condition = condition at hab
          generalize w.condition = condition' at hab
          cases condition <;> cases condition' <;> simp only [Bool.false_eq_true] at hab
          · exact .none
          · obtain ⟨operator, operand⟩ := Condition.beq_iff.1 hab
            exact .some ⟨operator, literals _ _ operand⟩

theorem forall₂_of_append {α β : Type} {R : α → β → Prop} {as as' : List α}
    {bs bs' : List β} (hlength : as.length = bs.length) (h : List.Forall₂ R (as ++ as') (bs ++ bs')) :
    List.Forall₂ R as bs ∧ List.Forall₂ R as' bs' := by
  induction as generalizing bs with
  | nil =>
    obtain rfl : bs = [] := List.length_eq_zero_iff.1 hlength.symm
    exact ⟨.nil, h⟩
  | cons a as ih =>
    cases bs with
    | nil => simp at hlength
    | cons b bs =>
      cases h with
      | cons first rest =>
        have := ih (by simpa using hlength) rest
        exact ⟨.cons first this.1, this.2⟩

private theorem ofFact_of_shape {f g : Fact} (literals : ∀ u v, (u == v) = true → m.literals u v)
    (shape : f.sameShape g = true) (names : List.Forall₂ m.names f.varNames g.varNames) :
    m.OfFact f g := by
  rw [Fact.sameShape, Bool.and_eq_true, beq_iff_eq] at shape
  exact ⟨shape.1, ofAtoms_of_shape literals shape.2 names⟩

private theorem length_varNames {as bs : List Atom} (shape : as.isEqv bs Atom.sameShape = true) :
    ((as.filterMap Atom.occurrence?).map Variable.name).length =
      ((bs.filterMap Atom.occurrence?).map Variable.name).length := by
  induction as generalizing bs with
  | nil => cases bs <;> simp_all [List.isEqv]
  | cons a as ih =>
    cases bs with
    | nil => simp [List.isEqv] at shape
    | cons b bs =>
      simp only [List.isEqv, Bool.and_eq_true] at shape
      have hrest := ih shape.2
      cases a with
      | lit u =>
        cases b with
        | lit v => exact hrest
        | var w => simp [Atom.sameShape] at shape
      | var v =>
        cases b with
        | lit u => simp [Atom.sameShape] at shape
        | var w => exact congrArg (· + 1) hrest

private theorem ofSolution_of_shape {a b : Search.Solution}
    (literals : ∀ u v, (u == v) = true → m.literals u v)
    (shape : a.isEqv b Search.Goal.sameShape = true)
    (names : List.Forall₂ m.names (Search.occurring a) (Search.occurring b)) : m.OfSolution a b := by
  induction a generalizing b with
  | nil => cases b <;> simp_all [List.isEqv]
  | cons g a ih =>
    cases b with
    | nil => simp [List.isEqv] at shape
    | cons h b =>
      simp only [List.isEqv, Bool.and_eq_true, Search.Goal.sameShape, beq_iff_eq] at shape
      obtain ⟨⟨resolved, hfact⟩, hrest⟩ := shape
      rw [Search.occurring, Search.occurring, List.flatMap_cons, List.flatMap_cons] at names
      have hargs := hfact
      rw [Fact.sameShape, Bool.and_eq_true] at hargs
      obtain ⟨hfirst, hbehind⟩ := forall₂_of_append (length_varNames hargs.2) names
      exact .cons ⟨resolved, ofFact_of_shape literals hfact hfirst⟩ (ih hrest hbehind)

/-- Solutions that look alike correspond by the variables at the same places. -/
theorem exists_of_looksLike {a b : Search.Solution} (h : Search.looksLike a b = true) :
    ∃ m : Correspondence, m.OfSolution a b ∧ (∀ u v, (u == v) = true → m.literals u v) ∧
      ∀ x y, m.names x y → x ∈ Search.occurring a ∧ y ∈ Search.occurring b := by
  rw [Search.looksLike, Bool.and_eq_true, beq_iff_eq] at h
  obtain ⟨shape, numbers⟩ := h
  refine ⟨ofPlaces _ _ numbers, ?_, fun _ _ => id, ?_⟩
  · exact ofSolution_of_shape (fun _ _ => id) shape (forall₂_places numbers)
  · rintro x y ⟨i, hx, hy⟩
    exact ⟨List.mem_of_getElem? hx, List.mem_of_getElem? hy⟩

end Correspondence

end Horn
