import Mathlib.Data.Finset.Card
import Mathlib.Data.Set.Function
import Horn.Proofs.Fact.Renaming
import Horn.Proofs.Search.Resolution

/-!
Renaming a sequence of facts apart.

`renameApart` collects the names first and then replaces them all at once. A `Renamer` goes through the
facts once and replaces every name where it stands: a name that was met before gets its number again, a
new one the next free number. It never looks at what it has written, so both do the same
(`Renamer.visitFacts_eq`). Main statement: the renamed facts differ from the given ones in one change of
names for all of them, and their names are exactly the fresh numbers that were used up; so what is renamed
in turn has no names in common.
-/

set_option autoImplicit false
set_option relaxedAutoImplicit false

namespace Horn

/-! ### Numbering -/

namespace Numbering

variable {seen : Numbering} {names : List VarName} {start : Nat} {name : VarName}

theorem nodup_meet (h : seen.Nodup) (name : VarName) : (seen.meet name).Nodup := by
  rw [meet]
  split
  · exact h
  · rename_i hnew
    exact h.append (List.nodup_singleton name) (List.disjoint_singleton.2 hnew)

theorem nodup_ofNames (names : List VarName) : (ofNames names).Nodup :=
  List.foldlRecOn names meet List.nodup_nil fun _ h name _ => nodup_meet h name

/-- As many names are numbered as are different from each other. -/
theorem length_ofNames (names : List VarName) : (ofNames names).length = names.toFinset.card := by
  rw [← List.toFinset_card_of_nodup (nodup_ofNames names)]
  congr 1
  ext name
  rw [List.mem_toFinset, List.mem_toFinset, mem_ofNames]

/-- Names that are met later do not change the fresh name of one that was met. -/
theorem fresh_foldl_meet (names : List VarName) (h : name ∈ seen) :
    (names.foldl meet seen).fresh start name = seen.fresh start name := by
  rw [fresh, fresh, number_foldl_meet names h]

theorem fresh_injective {x y : VarName} (hx : x ∈ seen) (h : seen.fresh start x = seen.fresh start y) :
    x = y := by
  have hnumber : start + seen.number x = start + seen.number y := VarName.fresh.inj h
  exact (List.idxOf_inj hx).1 (Nat.add_left_cancel hnumber)

/-- The fresh names of a numbering are the numbers that it uses up. -/
theorem exists_fresh_iff (once : seen.Nodup) :
    (∃ x ∈ seen, seen.fresh start x = name) ↔
      ∃ number, name = .fresh number ∧ start ≤ number ∧ number < start + seen.length := by
  constructor
  · rintro ⟨x, hx, rfl⟩
    have hlt : seen.number x < seen.length := List.idxOf_lt_length_of_mem hx
    exact ⟨_, rfl, Nat.le_add_right _ _, Nat.add_lt_add_left hlt start⟩
  · rintro ⟨number, rfl, hle, hlt⟩
    have hplace : number - start < seen.length := by omega
    refine ⟨seen[number - start], List.getElem_mem hplace, ?_⟩
    have hnumber : seen.number seen[number - start] = number - start :=
      List.Nodup.idxOf_getElem once _ hplace
    rw [fresh, hnumber, Nat.add_sub_cancel' hle]

end Numbering

/-! ### One pass -/

/-- The numbers that were given to the names met so far, and the next one that is free. -/
structure Renamer where
  given : List (VarName × Nat)
  next : Nat

namespace Renamer

/-- The name that is put in place of one, and the state afterwards. -/
def visit (r : Renamer) (name : VarName) : VarName × Renamer :=
  match r.given.lookup name with
  | some number => (.fresh number, r)
  | none => (.fresh r.next, ⟨(name, r.next) :: r.given, r.next + 1⟩)

/-- Replaces the names in arguments from left to right. -/
def visitArgs (r : Renamer) : List Atom → List Atom × Renamer
  | [] => ([], r)
  | .lit value :: rest =>
    let (others, r) := r.visitArgs rest
    (.lit value :: others, r)
  | .var v :: rest =>
    let (name, r) := r.visit v.name
    let (others, r) := r.visitArgs rest
    (.var { v with name } :: others, r)

/-- Replaces the names in facts, one fact after the other. -/
def visitFacts (r : Renamer) : List Fact → List Fact × Renamer
  | [] => ([], r)
  | f :: rest =>
    let (args, r) := r.visitArgs f.args
    let (others, r) := r.visitFacts rest
    ({ f with args } :: others, r)

/-- The state once the names of a numbering were met, in its order. -/
structure HasMet (r : Renamer) (start : Nat) (seen : Numbering) : Prop where
  given : ∀ name, r.given.lookup name = if name ∈ seen then some (start + seen.number name) else none
  next : r.next = start + seen.length

variable {r : Renamer} {start : Nat} {seen : Numbering}

theorem hasMet_nil (start : Nat) : (⟨[], start⟩ : Renamer).HasMet start [] :=
  ⟨fun _ => rfl, rfl⟩

theorem HasMet.visit (h : r.HasMet start seen) (name : VarName) :
    (r.visit name).1 = (seen.meet name).fresh start name ∧
      (r.visit name).2.HasMet start (seen.meet name) := by
  rw [Renamer.visit, h.given name, Numbering.fresh, Numbering.number_meet_self]
  by_cases hname : name ∈ seen
  · rw [if_pos hname, Numbering.meet, if_pos hname]
    exact ⟨rfl, h⟩
  · have hnumber : seen.number name = seen.length := List.idxOf_eq_length hname
    rw [if_neg hname, hnumber, Numbering.meet, if_neg hname]
    refine ⟨congrArg VarName.fresh h.next, fun other => ?_, ?_⟩
    · by_cases hother : other = name
      · subst hother
        simp [Numbering.number, List.idxOf_append, hname, h.next]
      · -- The new entry stands in front, and the other names keep their numbers.
        rw [List.lookup_cons, beq_false_of_ne hother, h.given other]
        by_cases hmem : other ∈ seen
        · simp [Numbering.number, List.idxOf_append, hmem]
        · simp [hmem, hother]
    · rw [List.length_append, ← Nat.add_assoc]
      exact congrArg (· + 1) h.next

/-- The names of the variables in arguments. -/
private def names (args : List Atom) : List VarName :=
  (args.filterMap Atom.occurrence?).map Variable.name

theorem HasMet.visitArgs (h : r.HasMet start seen) (args : List Atom) :
    (r.visitArgs args).1 = args.map (Atom.rename (((names args).foldl Numbering.meet seen).fresh start)) ∧
      (r.visitArgs args).2.HasMet start ((names args).foldl Numbering.meet seen) := by
  induction args generalizing r seen with
  | nil => exact ⟨rfl, h⟩
  | cons arg rest ih =>
    cases arg with
    | lit value =>
      obtain ⟨hargs, hmet⟩ := ih h
      exact ⟨congrArg (Atom.lit value :: ·) hargs, hmet⟩
    | var v =>
      obtain ⟨hname, hvisit⟩ := h.visit v.name
      obtain ⟨hargs, hmet⟩ := ih hvisit
      refine ⟨?_, hmet⟩
      change Atom.var { v with name := (r.visit v.name).1 } :: ((r.visit v.name).2.visitArgs rest).1 =
        Atom.rename _ (.var v) :: rest.map _
      rw [hargs, hname, ← Numbering.fresh_foldl_meet (names rest) (Numbering.mem_meet seen v.name)]
      rfl

theorem HasMet.visitFacts (h : r.HasMet start seen) (facts : List Fact) :
    (r.visitFacts facts).1 = facts.map
        (Fact.rename (((facts.flatMap Fact.varNames).foldl Numbering.meet seen).fresh start)) ∧
      (r.visitFacts facts).2.HasMet start ((facts.flatMap Fact.varNames).foldl Numbering.meet seen) := by
  induction facts generalizing r seen with
  | nil => exact ⟨rfl, h⟩
  | cons f rest ih =>
    obtain ⟨hargs, hfirst⟩ := h.visitArgs f.args
    obtain ⟨hfacts, hmet⟩ := ih hfirst
    rw [List.flatMap_cons, List.foldl_append]
    refine ⟨?_, hmet⟩
    change { f with args := (r.visitArgs f.args).1 } :: ((r.visitArgs f.args).2.visitFacts rest).1 = _
    rw [hfacts, List.map_cons, hargs]
    congr 1
    -- The names of the first fact keep their numbers while the others are met.
    refine congrArg (Fact.mk f.functor) (List.map_congr_left fun a ha => ?_)
    cases a with
    | lit value => rfl
    | var v =>
      have hmem : v.name ∈ f.varNames.foldl Numbering.meet seen :=
        Numbering.mem_foldl_meet.2 (.inr (Fact.mem_varNames_of_mem ha))
      change Atom.var { v with name := _ } = Atom.var { v with name := _ }
      rw [Numbering.fresh_foldl_meet _ hmem]
      rfl

/-- Replacing every name where it stands comes to the same as replacing all at once. -/
theorem visitFacts_eq (start : Nat) (facts : List Fact) :
    (Renamer.visitFacts ⟨[], start⟩ facts).1 = (renameApart start facts).1 ∧
      (Renamer.visitFacts ⟨[], start⟩ facts).2.next = (renameApart start facts).2 := by
  obtain ⟨hfacts, hmet⟩ := (hasMet_nil start).visitFacts facts
  exact ⟨hfacts, hmet.next⟩

end Renamer

/-! ### The renamed facts -/

/-- The names of the renamed facts are the numbers that were used up. -/
theorem nameSet_renameApart (start : Nat) (facts : List Fact) :
    Fact.nameSet (renameApart start facts).1 =
      {name | ∃ number, name = .fresh number ∧ start ≤ number ∧ number < (renameApart start facts).2} := by
  ext name
  have hname : name ∈ Fact.nameSet (renameApart start facts).1 ↔
      ∃ x ∈ Numbering.ofFacts facts, (Numbering.ofFacts facts).fresh start x = name := by
    change name ∈ ((facts.map (Fact.rename _)).flatMap Fact.varNames) ↔ _
    simp only [List.flatMap_map, Fact.varNames_rename, ← List.map_flatMap, List.mem_map,
      Numbering.ofFacts, Numbering.mem_ofNames]
  exact hname.trans (Numbering.exists_fresh_iff (Numbering.nodup_ofNames _))

theorem renameApart_injOn (start : Nat) (facts : List Fact) :
    Set.InjOn ((Numbering.ofFacts facts).fresh start) (Fact.nameSet facts) :=
  fun _ hx _ _ h => Numbering.fresh_injective (Numbering.mem_ofNames.2 hx) h

/-- Renames sequences of facts in turn, each from the first number on that the ones before left free. -/
def renameInTurn : Nat → List (List Fact) → List (List Fact) × Nat
  | next, [] => ([], next)
  | next, facts :: rest =>
    let (renamed, next) := renameApart next facts
    let (others, next) := renameInTurn next rest
    (renamed :: others, next)

/-- A search renames the clauses of a predicate in turn. -/
theorem renameInTurn_facts (next : Nat) (cs : List Clause) :
    renameInTurn next (cs.map Clause.facts) =
      ((Search.renameClauses next cs).1.map Clause.facts, (Search.renameClauses next cs).2) := by
  induction cs generalizing next with
  | nil => rfl
  | cons c rest ih =>
    rw [List.map_cons, renameInTurn, renameApart_facts]
    simp only [ih]
    rfl

private theorem le_of_mem_renameInTurn {next : Nat} {batches : List (List Fact)} {facts : List Fact}
    (h : facts ∈ (renameInTurn next batches).1) {number : Nat}
    (hname : .fresh number ∈ Fact.nameSet facts) : next ≤ number := by
  induction batches generalizing next with
  | nil => exact absurd h List.not_mem_nil
  | cons first rest ih =>
    rcases List.mem_cons.1 h with rfl | h
    · obtain ⟨_, heq, hle, -⟩ := (nameSet_renameApart next first).subset hname
      obtain rfl := VarName.fresh.inj heq
      exact hle
    · exact Nat.le_trans (Nat.le_add_right _ _) (ih h)

/-- What is renamed in turn has no names in common. -/
theorem pairwise_renameInTurn (next : Nat) (batches : List (List Fact)) :
    (renameInTurn next batches).1.Pairwise fun fs gs =>
      ∀ name ∈ Fact.nameSet fs, name ∉ Fact.nameSet gs := by
  induction batches generalizing next with
  | nil => exact .nil
  | cons facts rest ih =>
    refine List.pairwise_cons.2 ⟨fun later hlater name hname hother => ?_, ih _⟩
    obtain ⟨number, rfl, -, hlt⟩ := (nameSet_renameApart next facts).subset hname
    exact Nat.not_lt.2 (le_of_mem_renameInTurn hlater hother) hlt

/-- The renamed facts are the given ones under one change of names, which is one to one on the names of
all of them and leaves conditions where they are, so both sequences are alike; it makes no difference that
the names are replaced one after the other. Their names are the fresh numbers from the first one on up to
the next free one, and as many are used up as the given facts have names. So what is renamed in turn, as
the clauses of a predicate are, has no names in common. -/
theorem renameApart_exact (start : Nat) (facts : List Fact) :
    (∃ change : VarName → VarName, Set.InjOn change (Fact.nameSet facts) ∧
        (renameApart start facts).1 = facts.map (Fact.rename change)) ∧
      Fact.alikeAll facts (renameApart start facts).1 = true ∧
      ((Renamer.visitFacts ⟨[], start⟩ facts).1 = (renameApart start facts).1 ∧
        (Renamer.visitFacts ⟨[], start⟩ facts).2.next = (renameApart start facts).2) ∧
      Fact.nameSet (renameApart start facts).1 =
        {name | ∃ number, name = .fresh number ∧ start ≤ number ∧ number < (renameApart start facts).2} ∧
      (renameApart start facts).2 = start + (facts.flatMap Fact.varNames).toFinset.card ∧
      (∀ batches : List (List Fact), (renameInTurn start batches).1.Pairwise fun fs gs =>
        ∀ name ∈ Fact.nameSet fs, name ∉ Fact.nameSet gs) ∧
      ∀ cs : List Clause, renameInTurn start (cs.map Clause.facts) =
        ((Search.renameClauses start cs).1.map Clause.facts, (Search.renameClauses start cs).2) := by
  refine ⟨⟨_, renameApart_injOn start facts, rfl⟩, ?_, Renamer.visitFacts_eq start facts,
    nameSet_renameApart start facts, ?_, pairwise_renameInTurn start, renameInTurn_facts start⟩
  · exact Fact.alikeAll_rename fun x hx y hy h => renameApart_injOn start facts hx hy h
  · rw [← Numbering.length_ofNames]
    rfl

/-- In `p(_1, X, _0)` and `q(_0)` the names `_1` and `_0` are among the ones to give. -/
example :
    let facts (x y z : VarName) : List Fact :=
      [⟨"p", [.var ⟨x, none⟩, .var ⟨y, none⟩, .var ⟨z, none⟩]⟩, ⟨"q", [.var ⟨z, none⟩]⟩]
    renameApart 0 (facts (.fresh 1) (.named "X") (.fresh 0)) =
      (facts (.fresh 0) (.fresh 1) (.fresh 2), 3) := by
  cbv

end Horn
