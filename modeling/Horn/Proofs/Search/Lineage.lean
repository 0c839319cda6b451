import Horn.Proofs.Search.Ancestry
import Horn.Proofs.Search.Passes
import Horn.Proofs.Search.Trial

/-!
How partial solutions come about.

A solution does not tell how it was reached. A `Lineage` follows it from the query on, with the paths of its
goals in the tree of expansions. Beside the goals that the search keeps it has all goals that were ever put
there and the solutions that were expanded on the way. `Lineage.keeps` says how these goals lie in the tree,
and `Listing.hasLineage_run` that every solution of a run has a lineage.
-/

set_option autoImplicit false
set_option relaxedAutoImplicit false

namespace Horn.Search

variable {s : Setting} {memoized : String → Bool} {before behind : List Located}

/-! ### What is expanded -/

theorem resolved_of_choose {solution : Solution} {choice : Choice} {d : Goal}
    (chosen : choose s solution = some choice) (found : solution[choice.position]? = some d) :
    d.resolved = false := by
  cases choice with
  | builtin position =>
    obtain ⟨_, hd, hopen, -⟩ := choose_builtin chosen
    rwa [Option.some.inj (hd.symm.trans found)] at hopen
  | clauses position =>
    obtain ⟨_, hd, hopen, -⟩ := choose_clauses chosen
    rwa [Option.some.inj (hd.symm.trans found)] at hopen

/-- Before the goal of a program predicate that is expanded, only built-ins are open. -/
theorem isBuiltin_of_mem_take {solution : Solution} {position : Nat}
    (chosen : choose s solution = some (.clauses position)) {d : Goal} (mem : d ∈ solution.take position)
    (opened : d.resolved = false) : s.isBuiltin d.fact = true := by
  simp only [choose] at chosen
  split at chosen
  · simp at chosen
  · obtain ⟨first, hfirst, hchoice⟩ := Option.map_eq_some_iff.1 chosen
    obtain rfl : first = position := by simpa using hchoice
    obtain ⟨_, _, hbefore⟩ := List.findIdx?_eq_some_iff_getElem.1 hfirst
    obtain ⟨i, hi, rfl⟩ := List.mem_take_iff_getElem.1 mem
    simpa [opened] using hbefore i (by omega)

theorem clausesFor_builtin {l : Ledger} {goal : Fact} {c : Fact × List Fact}
    (builtin : s.isBuiltin goal = true) (candidate : c ∈ clausesFor s l goal) : c.2 = [] := by
  rw [clausesFor, if_pos builtin] at candidate
  obtain ⟨_, -, rfl⟩ := List.mem_map.1 candidate
  rfl

/-! ### Lineages -/

/-- An expansion of a solution by the goal that is chosen: a clause for this goal, and what unifies its head
with the goal. -/
structure Expansion (s : Setting) (memoized : String → Bool) (kept : List Located) where
  ledger : Ledger
  choice : Choice
  goal : Located
  clause : Fact × List Fact
  bindings : Bindings
  enabled : ledger.memo.isEnabled = memoized
  chosen : choose s (kept.map Located.goal) = some choice
  found : kept[choice.position]? = some goal
  candidate : clause ∈ clausesFor s ledger goal.goal.fact
  unified : unify clause.1 goal.goal.fact = some bindings

/-- What becomes of an expansion. -/
def Expansion.attempt {kept : List Located} (x : Expansion s memoized kept) : Attempt :=
  Search.attempt s memoized (kept.map Located.goal) x.choice.position x.goal.goal.fact x.clause.1 x.clause.2

/-- What an expansion makes of goals, before any of them is dropped. -/
def Expansion.splice {kept : List Located} (x : Expansion s memoized kept) (goals : List Located) :
    List Located :=
  Located.splice x.bindings (x.clause.2.map x.bindings.substitute) x.goal.path goals

/-- A solution, given by the goals that it keeps, and the goal by which it is expanded. -/
structure Step where
  kept : List Located
  goal : Located

/-- How a solution comes about in a search for a query: the steps on the way, the last one first; all goals
that were ever put there; and the goals that are `kept`, which make up the solution. -/
inductive Lineage (s : Setting) (memoized : String → Bool) (root : Fact) :
    (steps : List Step) → (all kept : List Located) → Prop
  | start : Lineage s memoized root [] [.query root] [.query root]
  | expand {steps : List Step} {all kept : List Located} {child : Solution}
      (parent : Lineage s memoized root steps all kept) (x : Expansion s memoized kept)
      (made : x.attempt.child? = some child) :
      Lineage s memoized root (⟨kept, x.goal⟩ :: steps) (x.splice all)
        (Located.compact memoized (x.splice kept))

variable {all kept : List Located} {root : Fact} {steps : List Step}

namespace Expansion

variable (x : Expansion s memoized kept)

theorem isOpen_goal : x.goal.isOpen = true := by
  have hresolved : x.goal.goal.resolved = false := resolved_of_choose x.chosen (by simp [x.found])
  rw [Located.isOpen, hresolved]
  rfl

theorem goal_mem : x.goal ∈ kept :=
  List.mem_of_getElem? x.found

/-- A built-in is expanded into nothing. -/
theorem body_eq_nil (builtin : s.isBuiltin x.goal.goal.fact = true) :
    x.clause.2.map x.bindings.substitute = [] := by
  rw [clausesFor_builtin builtin x.candidate, List.map_nil]

/-- What has children is the goal of a program predicate. -/
theorem isClausal_of_mem_children {d : Located}
    (child : d ∈ x.goal.children (x.clause.2.map x.bindings.substitute)) : x.goal.IsClausal s := by
  refine ⟨x.isOpen_goal, Bool.eq_false_iff.2 fun hbuiltin => ?_⟩
  rw [x.body_eq_nil hbuiltin] at child
  exact List.not_mem_nil child

theorem mem_splice {goals : List Located} (h : InTree s goals) (mem : x.goal ∈ goals) {d : Located} :
    d ∈ x.splice goals ↔ (∃ old ∈ goals, d = old.settle x.bindings x.goal.path) ∨
      d ∈ x.goal.children (x.clause.2.map x.bindings.substitute) :=
  h.mem_splice mem

/-- The goal of a program predicate is chosen by its position. -/
theorem choice_eq (user : s.isBuiltin x.goal.goal.fact = false) :
    x.choice = .clauses x.choice.position := by
  have hchosen := x.chosen
  have hfound := x.found
  cases hchoice : x.choice with
  | clauses position => rfl
  | builtin position =>
    rw [hchoice] at hchosen hfound
    obtain ⟨_, hg, -, -, hbuiltin⟩ := choose_builtin hchosen
    rw [List.getElem?_map, show kept[position]? = some x.goal from hfound] at hg
    obtain rfl := Option.some.inj hg
    rw [user] at hbuiltin
    cases hbuiltin

/-- The child of an expansion has an open goal or is an answer. -/
theorem child_eq {child : Solution} (made : x.attempt.child? = some child) :
    child = (compact memoized (discharge x.bindings (x.clause.2.map x.bindings.substitute)
        x.choice.position (kept.map Located.goal))).1 ∧
      (hasPending child = true ∨ isAnswer child = true) := by
  cases hattempt : x.attempt with
  | rejected => simp [hattempt, Attempt.child?] at made
  | undefined key => simp [hattempt, Attempt.child?] at made
  | discharged proven new =>
    rw [hattempt] at made
    obtain rfl : new = some child := made
    obtain ⟨b, hb, -, -, -, -, hnew⟩ := attempt_eq_discharged hattempt
    obtain rfl := Option.some.inj (hb.symm.trans x.unified)
    exact hnew child rfl

theorem child_mem_expand {child : Solution} (made : x.attempt.child? = some child) :
    child ∈ (Search.expand s x.ledger (kept.map Located.goal)).1 := by
  refine mem_expand.2 ⟨x.attempt, mem_tried.2 ?_, made⟩
  refine ⟨x.choice, x.goal.goal, x.clause, x.chosen, ?_, x.candidate, ?_⟩
  · rw [List.getElem?_map, x.found]
    rfl
  · rw [x.enabled]
    rfl

theorem map_goal_splice (h : InTree s kept) :
    (x.splice kept).map Located.goal = discharge x.bindings (x.clause.2.map x.bindings.substitute)
      x.choice.position (kept.map Located.goal) :=
  h.map_goal_splice x.found

/-- The goals that are kept make up the child. -/
theorem map_goal_compact (h : InTree s kept) {child : Solution} (made : x.attempt.child? = some child) :
    (Located.compact memoized (x.splice kept)).map Located.goal = child := by
  rw [Located.map_goal_compact, x.map_goal_splice h, (x.child_eq made).1]

end Expansion

/-- What is kept of all goals of a lineage: some of them in their order, among them all that are open. -/
structure Keeps (s : Setting) (all kept : List Located) : Prop where
  inTree : InTree s all
  sublist : kept.Sublist all
  opened : kept.filter Located.isOpen = all.filter Located.isOpen

namespace Keeps

theorem inTree_kept (h : Keeps s all kept) : InTree s kept :=
  h.inTree.sublist h.sublist

theorem mem_kept (h : Keeps s all kept) {d : Located} (hd : d ∈ all) (opened : d.isOpen = true) :
    d ∈ kept := by
  have hopen : d ∈ kept.filter Located.isOpen := by
    rw [h.opened]
    exact List.mem_filter.2 ⟨hd, opened⟩
  exact (List.mem_filter.1 hopen).1

theorem goal_mem (h : Keeps s all kept) (x : Expansion s memoized kept) : x.goal ∈ all :=
  h.sublist.subset x.goal_mem

/-- Among all goals, too, the one that is expanded is the first open one of a program predicate. -/
theorem first_of_expansion (x : Expansion s memoized kept) (h : Keeps s (before ++ x.goal :: behind) kept)
    (user : s.isBuiltin x.goal.goal.fact = false) : ∀ d ∈ before, ¬ d.IsClausal s := by
  intro d hd hclausal
  have hkept : d ∈ kept := h.mem_kept (by simp [hd]) hclausal.1
  have hlt : d.path < x.goal.path := h.inTree.path_lt_of_before d hd
  obtain ⟨left, right, heq, hposition⟩ := exists_append_of_getElem? x.found
  have htree : InTree s (left ++ x.goal :: right) := heq ▸ h.inTree_kept
  have hleft : d ∈ left := htree.mem_before (heq ▸ hkept) hlt
  have hbuiltin := isBuiltin_of_mem_take (x.choice_eq user ▸ x.chosen) (d := d.goal)
    (by simpa [heq, ← hposition] using ⟨d, hleft, rfl⟩) (by simpa [Located.isOpen] using hclausal.1)
  rw [hclausal.2] at hbuiltin
  cases hbuiltin

/-- Goals keep lying in the tree when one that is kept is expanded. -/
theorem inTree_splice (h : Keeps s all kept) (x : Expansion s memoized kept) : InTree s (x.splice all) := by
  obtain ⟨before, behind, rfl⟩ := List.append_of_mem (h.goal_mem x)
  exact h.inTree.splice x.isOpen_goal (h.first_of_expansion x) x.body_eq_nil

theorem inTree_splice_kept (h : Keeps s all kept) (x : Expansion s memoized kept) :
    InTree s (x.splice kept) :=
  (h.inTree_splice x).sublist (Located.splice_sublist h.sublist _)

/-- An expansion keeps all goals that are open, and the others lie where they were. -/
theorem expand (h : Keeps s all kept) (x : Expansion s memoized kept) :
    Keeps s (x.splice all) (Located.compact memoized (x.splice kept)) where
  inTree := h.inTree_splice x
  sublist := (Located.compact_sublist _ _).trans (Located.splice_sublist h.sublist _)
  opened := by
    have hpath : ∀ d ∈ all, d.path = x.goal.path → d.isOpen = true := by
      intro d hd heq
      rw [h.inTree.eq_of_path_eq hd (h.goal_mem x) heq]
      exact x.isOpen_goal
    rw [Located.filter_isOpen_compact, Expansion.splice, Expansion.splice,
      Located.filter_isOpen_splice fun d hd => hpath d (h.sublist.subset hd),
      Located.filter_isOpen_splice hpath, h.opened]

end Keeps

theorem Lineage.keeps (h : Lineage s memoized root steps all kept) : Keeps s all kept := by
  induction h with
  | start => exact ⟨InTree.query s root, List.Sublist.refl _, rfl⟩
  | expand parent x _ ih => exact ih.expand x

/-- The first goal stands for the query, and the first step discharges it. -/
theorem Lineage.exists_query (h : Lineage s memoized root steps all kept) :
    ∃ query goals, kept = query :: goals ∧ query.path = [] ∧
      (query.goal.fact.functor = root.functor ∧ query.goal.fact.arity = root.arity) ∧
      (query.isOpen = true ↔ steps = []) := by
  induction h with
  | start =>
    refine ⟨.query root, [], rfl, rfl, ⟨rfl, rfl⟩, ?_⟩
    simp [Located.query, Located.isOpen, Goal.pending]
  | @expand steps all kept child parent x made ih =>
    obtain ⟨query, goals, rfl, hpath, hpredicate, -⟩ := ih
    refine ⟨query.settle x.bindings x.goal.path, _, rfl, by simpa using hpath, by simpa using hpredicate, ?_⟩
    simp only [List.cons_ne_nil, iff_false]
    intro hopen
    obtain ⟨hquery, hne⟩ := Located.isOpen_settle.1 hopen
    refine parent.keeps.inTree_kept.leaf query List.mem_cons_self hquery x.goal x.goal_mem ⟨?_, Ne.symm hne⟩
    rw [hpath]
    exact List.nil_prefix

/-- A solution that comes about in a search for a query. -/
def HasLineage (s : Setting) (memoized : String → Bool) (root : Fact) (solution : Solution) : Prop :=
  ∃ steps all kept, Lineage s memoized root steps all kept ∧ kept.map Located.goal = solution

/-- What an attempt of the search discharges is discharged by an expansion. -/
theorem exists_expansion {l : Ledger} (enabled : l.memo.isEnabled = memoized) {a : Attempt}
    (mem : a ∈ tried s l (kept.map Located.goal)) (unrejected : a ≠ .rejected) :
    ∃ x : Expansion s memoized kept, x.attempt = a := by
  obtain ⟨choice, d, c, hchosen, hd, hcandidate, rfl⟩ := mem_tried.1 mem
  obtain ⟨g, hg, rfl⟩ : ∃ g, kept[choice.position]? = some g ∧ g.goal = d := by
    rw [List.getElem?_map] at hd
    exact Option.map_eq_some_iff.1 hd
  obtain ⟨b, hb⟩ : ∃ b, unify c.1 g.goal.fact = some b := by
    cases hb : unify c.1 g.goal.fact with
    | none => exact absurd (by rw [attempt, hb]) unrejected
    | some b => exact ⟨b, rfl⟩
  rw [enabled]
  exact ⟨⟨l, choice, g, c, b, enabled, hchosen, hg, hcandidate, hb⟩, rfl⟩

/-- The children of an expansion go on with the lineage of what was expanded. -/
theorem Lineage.hasLineage_of_mem_expand (h : Lineage s memoized root steps all kept) {l : Ledger}
    (enabled : l.memo.isEnabled = memoized) {child : Solution}
    (mem : child ∈ (Search.expand s l (kept.map Located.goal)).1) :
    HasLineage s memoized root child := by
  obtain ⟨a, ha, hchild⟩ := mem_expand.1 mem
  have hunrejected : a ≠ .rejected := by
    rintro rfl
    cases hchild
  obtain ⟨x, rfl⟩ := exists_expansion enabled ha hunrejected
  exact ⟨_, _, _, h.expand x hchild, x.map_goal_compact h.keeps.inTree_kept hchild⟩

/-- The solutions that stand in a run have lineages. -/
theorem Listing.hasLineage_run {p : Listing} (enabled : p.base.ledger.memo.isEnabled = memoized)
    (start : ∀ a ∈ p.standing, HasLineage s memoized root a) (stopEarly : Bool) (deadline : Option Nat)
    (passes : Nat) :
    ∀ a ∈ (run s stopEarly deadline passes p).2.standing, HasLineage s memoized root a := by
  refine (run_induction (P := fun p => p.base.ledger.memo.isEnabled = memoized ∧
    ∀ a ∈ p.standing, HasLineage s memoized root a) ⟨enabled, start⟩ ?_ passes).2
  intro p solution behind ⟨henabled, h⟩ next
  have hmemo : (p.advance s solution behind).base.ledger.memo.isEnabled = memoized := by
    rw [← henabled]
    funext key
    rw [Memo.isEnabled, Memo.isEnabled, enabled_advance]
  refine ⟨hmemo, fun a ha => ?_⟩
  have hwaiting := waiting_of_next? next
  rw [advance_eq] at ha
  rcases mem_standing_foldl ha with hchild | hold
  · obtain ⟨steps, all, kept, hlineage, rfl⟩ : HasLineage s memoized root solution :=
      h solution (List.mem_append_left _ (by simp [hwaiting]))
    exact hlineage.hasLineage_of_mem_expand (l := p.counted) henabled hchild
  · refine h a ?_
    rw [standing, hwaiting]
    rcases List.mem_append.1 hold with hold | hold
    · exact List.mem_append_left _ (List.mem_cons_of_mem _ hold)
    · exact List.mem_append_right _ hold

/-! ### Following a lineage -/

/-- The expansion of a solution with the clause of a number, if its head unifies. -/
def expansion? (s : Setting) (l : Ledger) (kept : List Located) (number : Nat) :
    Option (Expansion s l.memo.isEnabled kept) :=
  match chosen : choose s (kept.map Located.goal) with
  | none => none
  | some choice =>
    match found : kept[choice.position]? with
    | none => none
    | some goal =>
      match candidate : (clausesFor s l goal.goal.fact)[number]? with
      | none => none
      | some clause =>
        match unified : unify clause.1 goal.goal.fact with
        | none => none
        | some bindings =>
          some ⟨l, choice, goal, clause, bindings, rfl, chosen, found, List.mem_of_getElem? candidate,
            unified⟩

/-- Goes on from a solution with the clauses of the given numbers, one after the other. -/
def follow (s : Setting) : Ledger → List Nat → List Step → (all kept : List Located) →
    Option (List Step × List Located × List Located)
  | _, [], steps, all, kept => some (steps, all, kept)
  | l, number :: numbers, steps, all, kept =>
    (expansion? s l kept number).bind fun x =>
      if x.attempt.child?.isSome then
        follow s (expand s l (kept.map Located.goal)).2 numbers (⟨kept, x.goal⟩ :: steps) (x.splice all)
          (Located.compact l.memo.isEnabled (x.splice kept))
      else none

theorem Lineage.follow (h : Lineage s memoized root steps all kept) {l : Ledger}
    (enabled : l.memo.isEnabled = memoized) {numbers : List Nat} {steps' : List Step}
    {all' kept' : List Located}
    (followed : Search.follow s l numbers steps all kept = some (steps', all', kept')) :
    Lineage s memoized root steps' all' kept' := by
  induction numbers generalizing l steps all kept with
  | nil =>
    obtain ⟨rfl, rfl, rfl⟩ : steps = steps' ∧ all = all' ∧ kept = kept' := by
      simpa [Search.follow] using followed
    exact h
  | cons number numbers ih =>
    subst enabled
    rw [Search.follow, Option.bind_eq_some_iff] at followed
    obtain ⟨x, -, hrest⟩ := followed
    split at hrest
    · rename_i hmade
      obtain ⟨child, hchild⟩ := Option.isSome_iff_exists.1 hmade
      refine ih (h.expand x hchild) ?_ hrest
      funext key
      rw [Memo.isEnabled, Memo.isEnabled, enabled_expand]
    · cases hrest

end Horn.Search
