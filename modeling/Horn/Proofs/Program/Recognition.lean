import Horn.Proofs.Fact.Alpha
import Horn.Proofs.Program.Arrangement

/-!
Counting as one clause is an equivalence.

A clause recognizes another one if an assertion of the other one is counted on it. The goals that are
paired off then stand for each other wherever they are put, so the pairs of two recognitions can be
brought into one order: `exists_realigned`. Symmetry and transitivity are read off that.
-/

set_option autoImplicit false
set_option relaxedAutoImplicit false

namespace Horn.Clause

variable {left right : Numbering} {c d e : Clause}

/-- The names of a head. -/
abbrev headNames (c : Clause) : Numbering :=
  .ofFacts [c.head]

/-- An assertion of the second clause is counted on the first one. -/
def Recognizes (c d : Clause) : Prop :=
  c.isDeclaredBy d.head d.body = true

theorem recognizes_iff : c.Recognizes d ↔
    ∃ goals : List Fact, goals.map (shape d.headNames) = c.body.map (shape c.headNames) ∧
      (∀ s, goals.filter (shape d.headNames · = s) = d.body.filter (shape d.headNames · = s)) ∧
      Fact.alikeAll c.facts (d.head :: goals) = true := by
  rw [Recognizes, isDeclaredBy]
  constructor
  · intro h
    cases harrange : arrange c.headNames d.headNames c.body d.body with
    | none => simp [harrange] at h
    | some goals =>
      rw [harrange] at h
      obtain ⟨hshapes, hfilter⟩ := arrange_eq_some_iff.1 harrange
      exact ⟨goals, hshapes, hfilter, h⟩
  · rintro ⟨goals, hshapes, hfilter, halike⟩
    have harrange : arrange c.headNames d.headNames c.body d.body = some goals :=
      arrange_eq_some_iff.2 ⟨hshapes, hfilter⟩
    rw [harrange]
    exact halike

/-! ### Shapes of goals that correspond -/

private theorem headPlace_eq {m : Correspondence} {f g : Fact} (heads : m.OfFact f g) {x y : VarName}
    (names : m.names x y) : headPlace (.ofFacts [f]) x = headPlace (.ofFacts [g]) y := by
  have hnames : List.Forall₂ m.names ([f].flatMap Fact.varNames) ([g].flatMap Fact.varNames) :=
    List.rel_flatMap (List.Forall₂.cons heads .nil) fun _ _ h => h.varNames
  have hmem : x ∈ Numbering.ofFacts [f] ↔ y ∈ Numbering.ofFacts [g] := by
    rw [Numbering.ofFacts, Numbering.ofFacts, Numbering.mem_ofNames, Numbering.mem_ofNames]
    exact Correspondence.mem_iff hnames names
  have hnumber : (Numbering.ofFacts [f]).number x = (Numbering.ofFacts [g]).number y :=
    Correspondence.number_eq hnames names
  rw [headPlace, headPlace, hnumber]
  simp only [hmem]

private theorem sameShapeAtom_of_ofAtom {m : Correspondence} {f g : Fact} (heads : m.OfFact f g)
    {a b : Atom} (h : m.OfAtom a b) :
    sameShapeAtom (.ofFacts [f]) (.ofFacts [g]) a b = true := by
  cases h with
  | lit literals => exact m.equal literals
  | @var v w names conditions =>
    have hcondition : (v.condition == w.condition) = true := by
      generalize v.condition = condition at conditions
      generalize w.condition = condition' at conditions
      cases conditions with
      | none => rfl
      | some h => exact Condition.beq_iff.2 ⟨h.operator, m.equal h.operand⟩
    rw [sameShapeAtom, headPlace_eq heads names, hcondition]
    simp

/-- Goals that correspond, as their heads do, have the same shape. -/
theorem shape_eq_of_ofFact {m : Correspondence} {f g : Fact} (heads : m.OfFact f g) {k l : Fact}
    (goals : m.OfFact k l) : shape (.ofFacts [f]) k = shape (.ofFacts [g]) l := by
  refine shape_eq_iff.2 (sameShape_iff.2 ⟨goals.functor, ?_⟩)
  exact goals.args.imp fun _ _ => sameShapeAtom_of_ofAtom heads

theorem map_shape_eq_of_alikeAll {f g : Fact} {goals others : List Fact}
    (h : Fact.alikeAll (f :: goals) (g :: others) = true) :
    goals.map (shape (.ofFacts [f])) = others.map (shape (.ofFacts [g])) := by
  obtain ⟨m, hfacts⟩ := Fact.alikeAll_iff.1 h
  obtain ⟨hhead, hgoals⟩ := List.forall₂_cons.1 hfacts
  rw [← List.forall₂_eq_eq_eq, List.forall₂_map_left_iff, List.forall₂_map_right_iff]
  exact hgoals.imp fun _ _ => shape_eq_of_ofFact hhead

/-- Clauses that are alike goal by goal recognize each other. -/
theorem recognizes_of_alikeAll (h : Fact.alikeAll c.facts d.facts = true) : c.Recognizes d :=
  recognizes_iff.2 ⟨d.body, (map_shape_eq_of_alikeAll h).symm, fun _ => rfl, h⟩

/-! ### The equivalence -/

theorem Recognizes.refl (c : Clause) : c.Recognizes c :=
  recognizes_of_alikeAll (Fact.alikeAll_self _)

private theorem shape_eq_of_mem_zip {firsts seconds : List Fact}
    (shapes : firsts.map (shape left) = seconds.map (shape right)) :
    ∀ p ∈ firsts.zip seconds, shape left p.1 = shape right p.2 := by
  rw [← List.forall₂_eq_eq_eq, List.forall₂_map_left_iff, List.forall₂_map_right_iff] at shapes
  intro p hp
  exact (List.forall₂_iff_zip.1 shapes).2 hp

private theorem filter_map_fst {pairs : List (Fact × Fact)}
    (shapes : ∀ p ∈ pairs, shape left p.1 = shape right p.2) (s : Shape) :
    (pairs.map Prod.fst).filter (shape left · = s) =
      (pairs.filter (shape right ·.2 = s)).map Prod.fst := by
  rw [List.filter_map]
  congr 1
  refine List.filter_congr fun p hp => ?_
  rw [Function.comp_apply, shapes p hp]

/-- Goals that stand for each other can be brought into the order of any list that has the second ones
of each shape in the same order. -/
private theorem exists_realigned {f g : Fact} {firsts seconds goals : List Fact}
    (shapes : firsts.map (shape left) = seconds.map (shape right))
    (alike : Fact.alikeAll (f :: firsts) (g :: seconds) = true)
    (same : ∀ s, seconds.filter (shape right · = s) = goals.filter (shape right · = s)) :
    ∃ others : List Fact, others.map (shape left) = goals.map (shape right) ∧
      (∀ s, others.filter (shape left · = s) = firsts.filter (shape left · = s)) ∧
      Fact.alikeAll (f :: others) (g :: goals) = true := by
  have hlength : firsts.length = seconds.length := by simpa using congrArg List.length shapes
  have hfst : (firsts.zip seconds).map Prod.fst = firsts := List.map_fst_zip (by omega)
  have hsnd : (firsts.zip seconds).map Prod.snd = seconds := List.map_snd_zip (by omega)
  have hzip := shape_eq_of_mem_zip shapes
  have hsame : ∀ s, ((firsts.zip seconds).map Prod.snd).filter (shape right · = s) =
      goals.filter (shape right · = s) := by
    rwa [hsnd]
  obtain ⟨pairs, hperm, rfl, hfilter⟩ := exists_pairs_perm hsame
  have hpairs : ∀ p ∈ pairs, shape left p.1 = shape right p.2 := fun p hp =>
    hzip p (hperm.mem_iff.1 hp)
  refine ⟨pairs.map Prod.fst, ?_, ?_, ?_⟩
  · rw [List.map_map, List.map_map]
    exact List.map_congr_left hpairs
  · intro s
    calc (pairs.map Prod.fst).filter (shape left · = s)
        = (pairs.filter (shape right ·.2 = s)).map Prod.fst := filter_map_fst hpairs s
      _ = ((firsts.zip seconds).filter (shape right ·.2 = s)).map Prod.fst := by rw [hfilter]
      _ = ((firsts.zip seconds).map Prod.fst).filter (shape left · = s) := (filter_map_fst hzip s).symm
      _ = firsts.filter (shape left · = s) := by rw [hfst]
  · have hcons : ((f, g) :: firsts.zip seconds).Perm ((f, g) :: pairs) := hperm.symm.cons _
    refine Fact.alikeAll_of_perm hcons ?_
    rw [List.map_cons, List.map_cons, hfst, hsnd]
    exact alike

theorem Recognizes.symm (h : c.Recognizes d) : d.Recognizes c := by
  obtain ⟨goals, hshapes, hfilter, halike⟩ := recognizes_iff.1 h
  obtain ⟨others, hshapes', hfilter', halike'⟩ :=
    exists_realigned hshapes.symm halike hfilter
  exact recognizes_iff.2 ⟨others, hshapes', hfilter', Fact.alikeAll_symm halike'⟩

theorem Recognizes.trans (h : c.Recognizes d) (k : d.Recognizes e) : c.Recognizes e := by
  obtain ⟨goals, hshapes, hfilter, halike⟩ := recognizes_iff.1 h
  obtain ⟨others, hshapes', hfilter', halike'⟩ := recognizes_iff.1 k
  obtain ⟨realigned, hshapes'', hfilter'', halike''⟩ :=
    exists_realigned hshapes' (Fact.alikeAll_symm halike') fun s => (hfilter s).symm
  refine recognizes_iff.2 ⟨realigned, hshapes''.trans hshapes, fun s => ?_, ?_⟩
  · rw [hfilter'', hfilter']
  · exact Fact.alikeAll_trans halike (Fact.alikeAll_symm halike'')

/-- Clauses that recognize each other have the same key. -/
theorem Recognizes.key (h : c.Recognizes d) : c.key = d.key := by
  obtain ⟨goals, -, -, halike⟩ := recognizes_iff.1 h
  obtain ⟨m, hfacts⟩ := Fact.alikeAll_iff.1 halike
  exact (List.forall₂_cons.1 hfacts).1.key

/-- Counts do not matter for what is recognized. -/
theorem recognizes_congr {c' d' : Clause} (hc : c.facts = c'.facts) (hd : d.facts = d'.facts) :
    c.Recognizes d ↔ c'.Recognizes d' := by
  obtain ⟨hhead, hbody⟩ := List.cons.inj hc
  obtain ⟨hhead', hbody'⟩ := List.cons.inj hd
  rw [Recognizes, Recognizes, isDeclaredBy, isDeclaredBy, hhead, hbody, hhead', hbody', hc]

end Horn.Clause
