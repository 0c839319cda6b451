import Mathlib.Data.List.Forall2
import Horn.Program.Recognition

/-!
The arrangement of one body along another.

Goals seen from their heads have a `Shape`, and `arrange` gives each goal of the first body the next one
of the second body that has its shape. So an arrangement has the shapes of the first body in order, and
the goals of each shape in the order of the second body: `arrange_eq_some_iff`. It exists if both bodies
have the same shapes equally often: `exists_arrange`.
-/

set_option autoImplicit false
set_option relaxedAutoImplicit false

namespace Horn.Clause

variable {left right other : Numbering}

/-! ### Shapes -/

private theorem sameShapeAtom_self (head : Numbering) (a : Atom) : sameShapeAtom head head a a = true := by
  cases a <;> simp [sameShapeAtom]

private theorem sameCondition_symm {c d : Option Condition} (h : (c == d) = true) : (d == c) = true := by
  cases c <;> cases d
  · rfl
  · exact absurd h Bool.false_ne_true
  · exact absurd h Bool.false_ne_true
  · exact BEq.symm (α := Condition) h

private theorem sameCondition_trans {c d e : Option Condition} (h : (c == d) = true)
    (k : (d == e) = true) : (c == e) = true := by
  cases c with
  | none =>
    cases d with
    | none => exact k
    | some _ => exact absurd h Bool.false_ne_true
  | some c =>
    cases d with
    | none => exact absurd h Bool.false_ne_true
    | some d =>
      cases e with
      | none => exact absurd k Bool.false_ne_true
      | some e => exact BEq.trans (α := Condition) h k

private theorem sameShapeAtom_symm {a b : Atom} (h : sameShapeAtom left right a b = true) :
    sameShapeAtom right left b a = true := by
  cases a <;> cases b <;> simp only [sameShapeAtom, Bool.and_eq_true, Bool.false_eq_true] at h ⊢
  · exact ⟨BEq.symm h.1, sameCondition_symm h.2⟩
  · exact BEq.symm h

private theorem sameShapeAtom_trans {a b c : Atom} (h : sameShapeAtom left right a b = true)
    (k : sameShapeAtom right other b c = true) : sameShapeAtom left other a c = true := by
  cases a <;> cases b <;> cases c <;>
    simp only [sameShapeAtom, Bool.and_eq_true, Bool.false_eq_true] at h k ⊢
  · exact ⟨BEq.trans h.1 k.1, sameCondition_trans h.2 k.2⟩
  · exact BEq.trans h k

private theorem sameShapeArgs_iff {as bs : List Atom} : sameShapeArgs left right as bs = true ↔
    List.Forall₂ (fun a b => sameShapeAtom left right a b = true) as bs := by
  induction as generalizing bs with
  | nil => cases bs <;> simp [sameShapeArgs]
  | cons a as ih => cases bs <;> simp [sameShapeArgs, ih]

theorem sameShape_iff {f g : Fact} : sameShape left right f g = true ↔ f.functor = g.functor ∧
    List.Forall₂ (fun a b => sameShapeAtom left right a b = true) f.args g.args := by
  rw [sameShape, Bool.and_eq_true, beq_iff_eq, sameShapeArgs_iff]

theorem sameShape_self (head : Numbering) (f : Fact) : sameShape head head f f = true := by
  refine sameShape_iff.2 ⟨rfl, List.forall₂_same.2 fun a _ => ?_⟩
  exact sameShapeAtom_self head a

theorem sameShape_symm {f g : Fact} (h : sameShape left right f g = true) :
    sameShape right left g f = true := by
  obtain ⟨hfunctor, hargs⟩ := sameShape_iff.1 h
  exact sameShape_iff.2 ⟨hfunctor.symm, hargs.flip.imp fun _ _ => sameShapeAtom_symm⟩

theorem sameShape_trans {f g k : Fact} (h : sameShape left right f g = true)
    (l : sameShape right other g k = true) : sameShape left other f k = true := by
  obtain ⟨hfunctor, hargs⟩ := sameShape_iff.1 h
  obtain ⟨hfunctor', hargs'⟩ := sameShape_iff.1 l
  refine sameShape_iff.2 ⟨hfunctor.trans hfunctor', ?_⟩
  clear h l hfunctor hfunctor'
  generalize f.args = as at hargs
  generalize g.args = bs at hargs hargs'
  generalize k.args = cs at hargs'
  induction hargs generalizing cs with
  | nil =>
    cases hargs'
    exact .nil
  | cons first _ ih =>
    cases hargs' with
    | cons second rest => exact .cons (sameShapeAtom_trans first second) (ih _ rest)

/-- Goals seen from heads are the same if they have the same shape. -/
def shapes : Setoid (Numbering × Fact) where
  r x y := sameShape x.1 y.1 x.2 y.2 = true
  iseqv :=
    { refl := fun x => sameShape_self x.1 x.2
      symm := sameShape_symm
      trans := sameShape_trans }

/-- What is left of a body goal when variables of the head are known by their place in it and all
others look alike. -/
abbrev Shape : Type :=
  Quotient shapes

/-- The shape of a body goal seen from a head. -/
def shape (head : Numbering) (goal : Fact) : Shape :=
  Quotient.mk shapes (head, goal)

theorem shape_eq_iff {f g : Fact} : shape left f = shape right g ↔ sameShape left right f g = true :=
  ⟨Quotient.exact, fun h => Quotient.sound (show shapes.r (left, f) (right, g) from h)⟩

instance : DecidableEq Shape :=
  haveI (x y : Numbering × Fact) : Decidable (shapes.r x y) :=
    inferInstanceAs (Decidable (sameShape x.1 y.1 x.2 y.2 = true))
  Quotient.decidableEq

/-! ### Arrangements -/

/-- The first goal of a shape, and what is left without it. -/
private theorem find?_shape {f g : Fact} {goals : List Fact}
    (h : goals.find? (sameShape left right f) = some g) :
    ∃ before behind, goals = before ++ g :: behind ∧ shape right g = shape left f ∧
      (∀ k ∈ before, shape right k ≠ shape left f) ∧
      goals.eraseP (sameShape left right f) = before ++ behind := by
  obtain ⟨hg, before, behind, rfl, hbefore⟩ := List.find?_eq_some_iff_append.1 h
  have hskipped : ∀ k ∈ before, ¬ sameShape left right f k = true := by
    intro k hk hsame
    simpa [hsame] using hbefore k hk
  refine ⟨before, behind, rfl, (shape_eq_iff.2 hg).symm, ?_, ?_⟩
  · intro k hk heq
    exact hskipped k hk (shape_eq_iff.1 heq.symm)
  · rw [List.eraseP_append_right _ hskipped, List.eraseP_cons_of_pos hg]

/-- An arrangement has the shapes of the first body in order, and for each shape the goals of the
second body in order. -/
theorem arrange_eq_some_iff {goals others arranged : List Fact} :
    arrange left right goals others = some arranged ↔
      arranged.map (shape right) = goals.map (shape left) ∧
        ∀ s, arranged.filter (shape right · = s) = others.filter (shape right · = s) := by
  induction goals generalizing others arranged with
  | nil =>
    cases others with
    | nil =>
      simp only [arrange, Option.some.injEq, List.map_nil, List.map_eq_nil_iff]
      constructor
      · rintro rfl
        exact ⟨rfl, fun _ => rfl⟩
      · rintro ⟨rfl, -⟩
        rfl
    | cons g others =>
      simp only [arrange, reduceCtorEq, false_iff, List.map_nil, List.map_eq_nil_iff]
      rintro ⟨rfl, hfilter⟩
      have := hfilter (shape right g)
      simp at this
  | cons f goals ih =>
    rw [arrange]
    cases hfind : others.find? (sameShape left right f) with
    | none =>
      simp only [reduceCtorEq, false_iff]
      rintro ⟨hmap, hfilter⟩
      obtain ⟨g, rest, rfl, hg, -⟩ := List.map_eq_cons_iff.1 hmap
      have hmem : g ∈ others.filter (shape right · = shape left f) := by
        rw [← hfilter]
        exact List.mem_filter.2 ⟨List.mem_cons_self, by simpa using hg⟩
      have hsame : sameShape left right f g = true := shape_eq_iff.1 hg.symm
      exact List.find?_eq_none.1 hfind g (List.mem_of_mem_filter hmem) hsame
    | some g =>
      obtain ⟨before, behind, rfl, hg, hbefore, herase⟩ := find?_shape hfind
      have hnone : before.filter (shape right · = shape left f) = [] := by
        rw [List.filter_eq_nil_iff]
        intro k hk
        simpa using hbefore k hk
      -- Without its first goal of the shape, a body keeps the goals of every other shape.
      have hfilter (rest : List Fact) :
          (∀ s, (g :: rest).filter (shape right · = s) =
              (before ++ g :: behind).filter (shape right · = s)) ↔
            ∀ s, rest.filter (shape right · = s) =
              (before ++ behind).filter (shape right · = s) := by
        refine forall_congr' fun s => ?_
        by_cases hs : shape left f = s
        · subst hs
          simp [List.filter_append, hg, hnone]
        · simp [List.filter_append, hg, hs]
      simp only [herase, Option.map_eq_some_iff, ih]
      constructor
      · rintro ⟨rest, ⟨hmap, hrest⟩, rfl⟩
        refine ⟨?_, (hfilter rest).2 hrest⟩
        rw [List.map_cons, List.map_cons, hg, hmap]
      · rintro ⟨hmap, hall⟩
        obtain ⟨g', rest, rfl, hg', hmap⟩ := List.map_eq_cons_iff.1 hmap
        have hfirst := hall (shape left f)
        rw [List.filter_cons_of_pos (by simpa using hg'), List.filter_append, hnone,
          List.nil_append, List.filter_cons_of_pos (by simpa using hg)] at hfirst
        obtain rfl : g' = g := (List.cons.inj hfirst).1
        exact ⟨rest, ⟨hmap, (hfilter rest).1 hall⟩, rfl⟩

/-- An arrangement is a permutation of the second body. -/
theorem arrange_perm {goals others arranged : List Fact}
    (h : arrange left right goals others = some arranged) : arranged.Perm others := by
  induction goals generalizing others arranged with
  | nil =>
    obtain rfl : arranged = [] := by simpa using (arrange_eq_some_iff.1 h).1
    cases others with
    | nil => exact .nil
    | cons => simp [arrange] at h
  | cons f goals ih =>
    rw [arrange] at h
    cases hfind : others.find? (sameShape left right f) with
    | none => simp [hfind] at h
    | some g =>
      obtain ⟨before, behind, rfl, -, -, herase⟩ := find?_shape hfind
      simp only [hfind, herase, Option.map_eq_some_iff] at h
      obtain ⟨rest, hrest, rfl⟩ := h
      have hperm : (g :: rest).Perm (g :: (before ++ behind)) := (ih hrest).cons g
      exact hperm.trans List.perm_middle.symm

/-- Bodies with the same shapes, each equally often, pair off. -/
theorem exists_arrange {goals others : List Fact}
    (h : (others.map (shape right)).Perm (goals.map (shape left))) :
    ∃ arranged, arrange left right goals others = some arranged := by
  induction goals generalizing others with
  | nil =>
    obtain rfl : others = [] := by simpa using h
    exact ⟨[], rfl⟩
  | cons f goals ih =>
    have hmem : shape left f ∈ others.map (shape right) := h.mem_iff.2 List.mem_cons_self
    obtain ⟨g, hg, hshape⟩ := List.mem_map.1 hmem
    cases hfind : others.find? (sameShape left right f) with
    | none => exact absurd (shape_eq_iff.1 hshape.symm) (List.find?_eq_none.1 hfind g hg)
    | some g =>
      obtain ⟨before, behind, rfl, hg, -, herase⟩ := find?_shape hfind
      have hrest : ((before ++ behind).map (shape right)).Perm (goals.map (shape left)) := by
        rw [List.map_append, List.map_cons, List.map_cons, hg] at h
        rw [List.map_append]
        exact (List.perm_middle.symm.trans h).cons_inv
      obtain ⟨rest, hrest⟩ := ih hrest
      refine ⟨g :: rest, ?_⟩
      rw [arrange, hfind]
      simp only [herase, hrest, Option.map_some]

/-- Pairs are put in the order of a list of second components, if these are the same for every shape.
The pairs of a shape keep their order. -/
theorem exists_pairs_perm {pairs : List (Fact × Fact)} {goals : List Fact}
    (h : ∀ s, (pairs.map Prod.snd).filter (shape right · = s) = goals.filter (shape right · = s)) :
    ∃ pairs' : List (Fact × Fact), pairs'.Perm pairs ∧ pairs'.map Prod.snd = goals ∧
      ∀ s, pairs'.filter (shape right ·.2 = s) = pairs.filter (shape right ·.2 = s) := by
  induction goals generalizing pairs with
  | nil =>
    have hnil : pairs = [] := by
      cases pairs with
      | nil => rfl
      | cons p pairs => simpa using h (shape right p.2)
    subst hnil
    exact ⟨[], .nil, rfl, fun _ => rfl⟩
  | cons g goals ih =>
    have hfirst := h (shape right g)
    rw [List.filter_cons_of_pos (by simp), List.filter_map] at hfirst
    obtain ⟨p, rest, hpairs, rfl, -⟩ := List.map_eq_cons_iff.1 hfirst
    obtain ⟨before, behind, rfl, hbefore, hp, hrest⟩ := List.filter_eq_cons_iff.1 hpairs
    have hnone : before.filter (shape right ·.2 = shape right p.2) = [] := by
      rw [List.filter_eq_nil_iff]
      exact hbefore
    have hfilter (pairs' : List (Fact × Fact)) (s : Shape)
        (hs : pairs'.filter (shape right ·.2 = s) = (before ++ behind).filter (shape right ·.2 = s)) :
        (p :: pairs').filter (shape right ·.2 = s) =
          (before ++ p :: behind).filter (shape right ·.2 = s) := by
      by_cases hshape : shape right p.2 = s
      · subst hshape
        simp [List.filter_append, hs, hnone]
      · simp [List.filter_append, hs, hshape]
    have hgoals (s : Shape) : ((before ++ behind).map Prod.snd).filter (shape right · = s) =
        goals.filter (shape right · = s) := by
      have hs := h s
      by_cases hshape : shape right p.2 = s
      · subst hshape
        rw [List.filter_map, Function.comp_def] at hs ⊢
        simpa [List.filter_append, List.filter_cons, hnone] using hs
      · simpa [List.filter_append, List.filter_cons, hshape] using hs
    obtain ⟨pairs', hperm, hmap, hkeep⟩ := ih hgoals
    refine ⟨p :: pairs', ?_, ?_, fun s => hfilter pairs' s (hkeep s)⟩
    · exact (hperm.cons p).trans List.perm_middle.symm
    · rw [List.map_cons, hmap]

end Horn.Clause
