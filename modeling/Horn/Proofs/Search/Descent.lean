import Horn.Proofs.Search.Lead
import Horn.Proofs.Unification.Names

/-!
An expansion keeps what leads to an answer.

`Complete` collects what is assumed of a program without built-ins. Under it every partial solution
is `Fit`: its variables are older than the clauses to come, its open goals are user goals, and they
still have every variable of the query, unless the query was ground from the start. So the expansion
of a fit solution that leads to a tuple has a child that leads to it by a smaller forest:
`Fit.exists_child`, provided that the memo, if it is asked at all, gives the only possible answer.
-/

set_option autoImplicit false
set_option relaxedAutoImplicit false

namespace Horn

/-- Every variable of the head of a clause occurs in its body. -/
def Clause.IsRestricted (c : Clause) : Prop :=
  ∀ name ∈ c.head.varNames, ∃ g ∈ c.body, name ∈ g.varNames

namespace Search

/-- What is assumed of a program in order to find every answer of a query: the candidates are the
clauses, no body calls a built-in, and the heads bring in no variables or the query has none. -/
structure Complete (s : Setting) (clauses : List Clause) (root : Fact) : Prop where
  isCandidate : ∀ c ∈ clauses, c ∈ s.program.candidates c.key
  ofCandidate : ∀ key, ∀ c ∈ s.program.candidates key, c ∈ clauses
  user : ∀ c ∈ clauses, ∀ g ∈ c.body, s.isBuiltin g = false
  restricted : root.isGround = true ∨ ∀ c ∈ clauses, c.IsRestricted

/-- A solution as a search for a query makes it on such a program. -/
structure Fit (s : Setting) (root : Fact) (bound : Nat) (solution : Solution) : Prop where
  nonempty : solution ≠ []
  below : ∀ g ∈ solution, ∀ name ∈ g.fact.varNames, name.Below bound
  user : ∀ g ∈ pending solution, s.isBuiltin g.fact = false
  ground : root.isGround = true → ∀ query ∈ solution.head?, query.fact.isGround = true
  determined : ∀ query ∈ solution.head?, ∀ name ∈ query.fact.varNames,
    ∃ g ∈ pending solution, name ∈ g.fact.varNames

variable {s : Setting} {clauses : List Clause} {root : Fact} {bound : Nat} {solution : Solution}

theorem Fit.mono {other : Nat} (h : Fit s root bound solution) (le : bound ≤ other) :
    Fit s root other solution :=
  { h with below := fun g hg name hname => (h.below g hg name hname).mono le }

/-- A query with nothing open is ground. -/
theorem Fit.isAnswer (h : Fit s root bound solution)
    (closed : hasPending solution = false) : isAnswer solution = true := by
  obtain ⟨query, goals, rfl⟩ := List.exists_cons_of_ne_nil h.nonempty
  rw [Search.isAnswer, List.head?_cons, Option.any_some, Fact.isGround_iff, List.eq_nil_iff_forall_not_mem]
  intro name hname
  obtain ⟨g, hg, -⟩ := h.determined query rfl name hname
  rw [← Bool.not_eq_true, hasPending_iff, not_not] at closed
  rw [closed] at hg
  exact List.not_mem_nil hg

/-- A program that has a clause defines its predicate. -/
theorem Complete.isDefined (h : Complete s clauses root) {c : Clause} (hc : c ∈ clauses) {f : Fact}
    (functor : c.head.functor = f.functor) (arity : c.head.arity = f.arity) :
    s.isDefined f = true := by
  have hkey : c.key = f.key := by rw [Clause.key, Fact.key, Fact.key, functor, arity]
  have hcandidate := h.isCandidate c hc
  rw [hkey, Program.candidates] at hcandidate
  have hdefines : s.program.defines f.key = true := by
    rw [Program.defines, Bool.not_eq_true', List.isEmpty_eq_false_iff]
    intro hnil
    simp [hnil] at hcandidate
  rw [Setting.isDefined, hdefines, Bool.or_true]

/-- Discharging a goal of a fit solution makes a fit solution. -/
theorem Fit.discharge {before behind : Solution} {g : Goal}
    (h : Fit s root bound (before ++ g :: behind)) (opened : g.resolved = false) {head : Fact}
    {body : List Fact} {b : Bindings} (hb : unify head g.fact = some b) {next : Nat}
    (le : bound ≤ next) (bodyBelow : ∀ f ∈ body, ∀ name ∈ f.varNames, name.Below next)
    (bodyUser : ∀ f ∈ body, s.isBuiltin f = false)
    (restricted : root.isGround = true ∨ ∀ name ∈ head.varNames, ∃ f ∈ body, name ∈ f.varNames)
    (memoized : String → Bool) :
    Fit s root next (compact memoized
      (Search.discharge b (body.map b.substitute) before.length (before ++ g :: behind))).1 := by
  obtain ⟨hhead, hsublist, hpending⟩ := compact_fst memoized
    (Search.discharge b (body.map b.substitute) before.length (before ++ g :: behind))
  rw [pending_discharge] at hpending
  have hwithin : b.Within (VarName.Below next) := Bindings.within_of_unify
    (fun name hname => (h.below g (by simp) name hname).mono le) hb
  have holdPending := pending_append_cons before behind opened
  have hground : root.isGround = true → ∀ old ∈ (before ++ g :: behind).head?,
      old.fact.varNames = [] := fun hroot old hold => Fact.isGround_iff.1 (h.ground hroot old hold)
  constructor
  case nonempty =>
    intro hnil
    rw [hnil, discharge_append] at hhead
    cases before <;> simp at hhead
  case below =>
    intro d hd
    rcases mem_discharge (hsublist.subset hd) with ⟨d', hd', heq⟩ | hbody
    · rw [heq]
      exact hwithin.substitute fun name hname => (h.below d' hd' name hname).mono le
    · obtain ⟨f, hf, heq⟩ := List.mem_map.1 hbody
      rw [← heq]
      exact hwithin.substitute (bodyBelow f hf)
  case user =>
    have hold : ∀ d ∈ pending (before ++ g :: behind), s.isBuiltin (d.substitute b).fact = false := by
      intro d hd
      simpa [Setting.isBuiltin] using h.user d hd
    intro d hd
    rw [hpending, List.mem_append, List.mem_append, List.mem_map, List.mem_map, List.mem_map] at hd
    rcases hd with ⟨d, hd, rfl⟩ | ⟨f, hf, rfl⟩ | ⟨d, hd, rfl⟩
    · exact hold d (holdPending ▸ List.mem_append_left _ hd)
    · obtain ⟨f', hf', rfl⟩ := List.mem_map.1 hf
      simpa [Setting.isBuiltin, Goal.pending] using bodyUser f' hf'
    · exact hold d (holdPending ▸ List.mem_append_right _ (List.mem_cons_of_mem _ hd))
  case ground =>
    intro hroot query hq
    obtain ⟨old, hold, heq⟩ := exists_query_of_compact hq
    rw [Fact.isGround_iff, List.eq_nil_iff_forall_not_mem, heq]
    intro name hname
    obtain ⟨other, hother, -⟩ := Bindings.mem_varNames_substitute.1 hname
    rw [hground hroot old hold] at hother
    exact List.not_mem_nil hother
  case determined =>
    intro query hq name hname
    obtain ⟨old, hold, heq⟩ := exists_query_of_compact hq
    rw [heq] at hname
    obtain ⟨other, hother, hresolve⟩ := Bindings.mem_varNames_substitute.1 hname
    obtain ⟨d, hd, hmem⟩ := h.determined old hold other hother
    have hsubstituted : name ∈ (b.substitute d.fact).varNames :=
      Bindings.mem_varNames_substitute.2 ⟨other, hmem, hresolve⟩
    rw [hpending]
    rw [holdPending, List.mem_append, List.mem_cons] at hd
    rcases hd with hd | rfl | hd
    · exact ⟨d.substitute b, List.mem_append_left _ (List.mem_map_of_mem hd), by simpa using hsubstituted⟩
    · -- The variable was in the goal that is discharged, so it is in the head, and so in the body.
      obtain ⟨inner, hinner, hresolve⟩ :=
        Bindings.mem_varNames_substitute.1 (Bindings.mem_varNames_of_unify hb hsubstituted)
      rcases restricted with hroot | hrestricted
      · rw [hground hroot old hold] at hother
        exact absurd hother List.not_mem_nil
      · obtain ⟨f, hf, hmem⟩ := hrestricted inner hinner
        refine ⟨Goal.pending (d.depth + 1) (b.substitute f), ?_,
          Bindings.mem_varNames_substitute.2 ⟨inner, hmem, hresolve⟩⟩
        exact List.mem_append_right _ (List.mem_append_left _
          (List.mem_map_of_mem (List.mem_map_of_mem hf)))
    · exact ⟨d.substitute b, List.mem_append_right _ (List.mem_append_right _ (List.mem_map_of_mem hd)),
        by simpa using hsubstituted⟩

/-- The resolvents of a goal of a fit solution have fresh variables and user goals, and bring in no
variables by their heads. -/
theorem Complete.resolvent (complete : Complete s clauses root) {l : Ledger} {next : Nat}
    {goal head : Fact} {body : List Fact} (h : Resolvent s l next goal head body) :
    (∀ f ∈ body, ∀ name ∈ f.varNames, name.Below next) ∧ (∀ f ∈ body, s.isBuiltin f = false) ∧
      (root.isGround = true ∨ ∀ name ∈ head.varNames, ∃ f ∈ body, name ∈ f.varNames) := by
  cases h with
  | value _ _ _ _ => exact ⟨by simp, by simp, .inr (by simp [Fact.varNames])⟩
  | recorded _ _ => exact ⟨by simp, by simp, .inr (by simp [Fact.varNames])⟩
  | @renamed c start user candidate fresh free =>
    have hc := complete.ofCandidate _ c candidate
    refine ⟨fun f hf name hname => ?_, fun f hf => ?_, complete.restricted.imp_right fun hrestricted => ?_⟩
    · exact (Clause.below_renameApart (List.mem_cons_of_mem _ hf) hname).mono free
    · obtain ⟨f', hf', rfl⟩ := List.mem_map.1 hf
      simpa [Setting.isBuiltin] using complete.user c hc f' hf'
    · intro name hname
      obtain ⟨other, hother, rfl⟩ := List.mem_map.1 (Fact.varNames_rename _ _ ▸ hname)
      obtain ⟨f, hf, hmem⟩ := hrestricted c hc other hother
      exact ⟨_, List.mem_map_of_mem hf, Fact.varNames_rename _ _ ▸ List.mem_map_of_mem hmem⟩

/-- Expanding a fit solution makes fit solutions. -/
theorem Fit.expand (complete : Complete s clauses root) {l : Ledger}
    (h : Fit s root l.nextVar solution) {child : Solution}
    (mem : child ∈ (Search.expand s l solution).1) :
    Fit s root (Search.expand s l solution).2.nextVar child := by
  obtain ⟨before, g, behind, head, body, b, rfl, hopen, hresolvent, hb, rfl⟩ :=
    exists_of_mem_expand mem
  obtain ⟨hbelow, huser, hrestricted⟩ := complete.resolvent hresolvent
  exact h.discharge hopen hb (nextVar_le_expand s l _) hbelow huser hrestricted _

/-- Whatever the memo answers for a goal is what every instance with a forest comes to. -/
def IsOnlyAnswer (clauses : List Clause) (l : Ledger) (goal : Fact) : Prop :=
  ∀ values, cachedTuple? l goal = some values → ∀ θ n rest,
    Forest clauses n (goal.tuple θ :: rest) → (values == goal.values θ) = true

/-- A child that an attempt makes of a fit solution is kept. -/
private theorem Fit.exists_kept (complete : Complete s clauses root) {answer : List Literal} {n : Nat}
    {before behind : Solution} {g : Goal} (h : Fit s root bound (before ++ g :: behind))
    (opened : g.resolved = false) {l : Ledger} {next : Nat} (le : bound ≤ next) {head : Fact}
    {body : List Fact} (resolvent : Resolvent s l next g.fact head body) {memoized : String → Bool}
    {ζ : Valuation} (found : ∃ b, unify head g.fact = some b ∧ ∃ proven,
      let child := (compact memoized
        (Search.discharge b (body.map b.substitute) before.length (before ++ g :: behind))).1
      attempt s memoized (before ++ g :: behind) before.length g.fact head body =
        .discharged proven (if hasPending child || Search.isAnswer child then some child else none) ∧
      LeadsBy clauses answer n child ζ) :
    ∃ child, (attempt s memoized (before ++ g :: behind) before.length g.fact head body).child? =
      some child ∧ Leads clauses answer n child := by
  obtain ⟨b, hb, proven, hattempt, hleads⟩ := found
  obtain ⟨hbelow, huser, hrestricted⟩ := complete.resolvent resolvent
  have hfit := h.discharge opened hb le hbelow huser hrestricted memoized
  refine ⟨_, ?_, ζ, hleads⟩
  rw [hattempt, Attempt.child?, if_pos]
  cases hpending : hasPending _ with
  | true => rfl
  | false => exact hfit.isAnswer hpending

/-- The expansion of a fit solution that leads to a tuple has a child that leads to it by a smaller
forest. -/
theorem Fit.exists_child (complete : Complete s clauses root) {l : Ledger}
    (h : Fit s root l.nextVar solution) (opened : hasPending solution = true)
    {answer : List Literal} {n : Nat} (leads : Leads clauses answer n solution)
    (only : ∀ g ∈ (pending solution).head?, IsOnlyAnswer clauses l g.fact) :
    ∃ child ∈ (Search.expand s l solution).1, ∃ k < n, Leads clauses answer k child := by
  obtain ⟨before, g, behind, rfl, hbefore, hopen⟩ := exists_first_pending opened
  obtain ⟨θ, hquery, hadmits, hforest⟩ := leads
  have hpending := pending_append_cons before behind hopen
  rw [pending_eq_nil hbefore, List.nil_append] at hpending
  have hexpand : Search.expand s l (before ++ g :: behind) =
      expandGoal s l (before ++ g :: behind) before.length g.fact := by
    rw [Search.expand, choose_clauses_eq hbefore hopen h.user]
    simp
  have huser : s.isBuiltin g.fact = false := h.user g (by simp [hpending])
  rw [owed, hpending, List.map_cons] at hforest
  rw [hexpand, expandGoal]
  cases hcached : cachedTuple? l g.fact with
  | some values =>
    have hvalues := only g (by simp [hpending]) values hcached θ n _ hforest
    obtain ⟨k, hk, hrest⟩ := hforest.exists_of_cons
    obtain ⟨child, hchild, hleads⟩ := h.exists_kept complete hopen (Nat.le_refl _)
      (.recorded huser hcached) (LeadsBy.exists_discharged l.memo.isEnabled hbefore hquery hadmits rfl
        (by simpa using hvalues) (Fact.admits_ofLiterals _ _ _) (by simp) (by simp) hrest)
    exact ⟨child, List.mem_filterMap.2 ⟨_, List.mem_singleton.2 rfl, hchild⟩, k, hk, hleads⟩
  | none =>
    obtain ⟨c, hc, η, k, rfl, hclause, hfunctor, hhead, hrest⟩ := hforest.exists_instance
    have hkey : c.key = g.fact.key := by
      have hlength := List.length_eq_of_beq hhead
      rw [Clause.key, Fact.key, Fact.key, hfunctor]
      simp_all [Fact.tuple]
    have hcandidate : c ∈ s.program.candidates g.fact.key := hkey ▸ complete.isCandidate c hc
    obtain ⟨start, hstart, hmem⟩ := exists_mem_renameClauses hcandidate l.nextVar
    obtain ⟨ζ, hold, hnew⟩ := c.exists_valuation start θ η
    -- The variables of the solution are older than those of the renamed clause.
    have hagree : ∀ d ∈ before ++ g :: behind, ∀ name ∈ d.fact.varNames, ζ name = θ name :=
      fun d hd name hname => hold name ((h.below d hd name hname).mono hstart)
    have hsame : ∀ d ∈ before ++ g :: behind, d.fact.values ζ = d.fact.values θ :=
      fun d hd => Fact.values_congr (hagree d hd)
    have hquery' : ∀ query ∈ (before ++ g :: behind).head?,
        (query.fact.values ζ == answer) = true := by
      intro query hq
      rw [hsame query (List.mem_of_mem_head? hq)]
      exact hquery query hq
    have hadmits' : ∀ d ∈ before ++ g :: behind, d.fact.Admits ζ := fun d hd =>
      Fact.admits_congr (fun name hname => hagree d hd name hname ▸ BEq.rfl) (hadmits d hd)
    have hvalues : ((c.renameApart start).1.head.values ζ == g.fact.values ζ) = true := by
      rw [hsame g (by simp)]
      exact (Clause.values_rename hnew List.mem_cons_self).symm ▸ BEq.symm hhead
    have hbodyAdmits : ∀ f ∈ (c.renameApart start).1.body, f.Admits ζ := by
      intro f hf
      obtain ⟨f', hf', rfl⟩ := List.mem_map.1 hf
      exact Clause.admits_rename hnew (List.mem_cons_of_mem _ hf') (hclause f' (List.mem_cons_of_mem _ hf'))
    have hdefined : ∀ f ∈ (c.renameApart start).1.body, ∀ b : Bindings,
        s.isDefined (b.substitute f) = true := by
      intro f hf b
      obtain ⟨f', hf', rfl⟩ := List.mem_map.1 hf
      obtain ⟨d, hd, hfunctor, harity⟩ := hrest.exists_clause
        (List.mem_append_left _ (List.mem_map_of_mem hf'))
      exact complete.isDefined hd hfunctor (by simpa [Fact.tuple] using harity)
    have howed : Forest clauses k
        ((c.renameApart start).1.body.map (Fact.tuple · ζ) ++ owed ζ behind) := by
      refine hrest.congr (List.rel_append ?_ ?_)
      · change List.Forall₂ _ _ ((c.body.map (Fact.rename (c.names.fresh start))).map _)
        rw [List.map_map, List.forall₂_map_left_iff, List.forall₂_map_right_iff, List.forall₂_same]
        intro f hf
        refine ⟨rfl, ?_⟩
        rw [Function.comp_apply, Fact.tuple, Fact.tuple,
          Clause.values_rename hnew (List.mem_cons_of_mem _ hf)]
        exact BEq.rfl
      · rw [owed, List.forall₂_map_left_iff, List.forall₂_map_right_iff, List.forall₂_same]
        intro d hd
        refine ⟨rfl, ?_⟩
        rw [Fact.tuple, Fact.tuple, hsame d (by simp [(mem_pending.1 hd).1])]
        exact BEq.rfl
    obtain ⟨child, hchild, hleads⟩ := h.exists_kept complete hopen
      (Nat.le_max_left l.nextVar (c.renameApart start).2)
      (.renamed huser hcandidate hstart (Nat.le_max_right _ _))
      (LeadsBy.exists_discharged l.memo.isEnabled hbefore hquery' hadmits' hfunctor hvalues
        (Clause.admits_rename hnew List.mem_cons_self (hclause _ List.mem_cons_self))
        hbodyAdmits hdefined howed)
    refine ⟨child, ?_, k, Nat.lt_succ_self k, hleads⟩
    rw [expandClauses_eq]
    exact List.mem_filterMap.2 ⟨_, List.mem_map_of_mem (List.mem_map_of_mem hmem), hchild⟩

end Search

end Horn
