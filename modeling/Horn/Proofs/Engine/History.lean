import Horn.Engine.Search
import Horn.Proofs.Memo.Recorded
import Horn.Proofs.Program.Change

/-!
Histories of an engine.

An operation is performed on the engine it is applied to, and a refused one leaves the engine as it
is. `ReachableBy` collects the engines that come about by operations which a restriction allows,
from a new engine on. `Becomes` and `Remakes` list once what an operation can do to an engine and to
its active table, and `ReachableBy.tables_induction` turns a statement about one operation into one
about every table of every reachable engine.
-/

set_option autoImplicit false
set_option relaxedAutoImplicit false

namespace Horn

open Builtin (Ambient Registry)

/-- What can be done to an engine. A search may be cut off by a deadline or after a number of
passes. -/
inductive Operation where
  | assert (head : Fact) (body : List Fact)
  | retract (head : Fact) (body : List Fact)
  | retractAt (position : Nat)
  | selectTable (name : String)
  | enableMemo (key : String)
  | disableMemo (key : String)
  | clearMemo
  | clearMemoKey (key : String)
  | setSearchTimeout (timeout : Duration)
  | search (deadline : Option Nat) (passes : Nat) (goal : Fact) (stopEarly : Bool)
      (ambient : Ambient)

/-- An operation does not assert a clause that calls the predicate of queries. -/
def Operation.IsPlain : Operation → Prop
  | .assert _ body => ∀ g ∈ body, g.functor ≠ Engine.queryFunctor
  | _ => True

namespace Engine

/-- The engine that an operation returns, or the one before if the operation is refused. -/
def orSame (e : Engine) : Except Refusal Engine → Engine
  | .ok after => after
  | .error _ => e

/-- The engine after an operation. -/
def perform (e : Engine) : Operation → Engine
  | .assert head body => e.orSame ((e.assert head body).map Prod.fst)
  | .retract head body => e.orSame ((e.retract head body).map Prod.fst)
  | .retractAt position => e.orSame ((e.retractAt position).map Prod.fst)
  | .selectTable name => e.orSame (e.selectTable name)
  | .enableMemo key => e.orSame (e.enableMemo key)
  | .disableMemo key => e.orSame (e.disableMemo key)
  | .clearMemo => e.clearMemo
  | .clearMemoKey key => e.orSame (e.clearMemoKey key)
  | .setSearchTimeout timeout => e.setSearchTimeout timeout
  | .search deadline passes goal stopEarly ambient =>
    (e.searchWithin deadline passes goal stopEarly ambient).1

/-- The engines that allowed operations lead to from a new one. -/
inductive ReachableBy (Allowed : Engine → Operation → Prop) : Engine → Prop
  | new (config : Config) : ReachableBy Allowed (Engine.new config)
  | perform {e : Engine} {op : Operation} (reachable : ReachableBy Allowed e)
      (allowed : Allowed e op) : ReachableBy Allowed (e.perform op)

/-- The engines that some history leads to. -/
abbrev Reachable : Engine → Prop :=
  ReachableBy fun _ _ => True

/-- The engine after a history, from a new one with the standard settings. -/
def after (history : List Operation) : Engine :=
  history.foldl perform (Engine.new default)

/-- An operation removes a clause of the active table. -/
def Removes (e : Engine) : Operation → Prop
  | .retract head body => ∃ program, e.table.program.retract head body = .ok (program, .removed)
  | .retractAt position => ∃ program c, e.table.program.retractAt position = .ok (program, c)
  | _ => False

/-- An operation is plain and removes a clause only while the memo of its table is empty. -/
def IsTidy (e : Engine) (op : Operation) : Prop :=
  op.IsPlain ∧ (e.Removes op → e.table.memo.tries = [])

/-- What an operation can make of the active table. -/
inductive Remakes (e : Engine) : Operation → Table → Prop
  | asserted {head : Fact} {body : List Fact} (unreserved : head.functor ≠ queryFunctor)
      (user : e.registry.contains head.functor head.arity = false) :
      Remakes e (.assert head body)
        { e.table with program := (e.table.program.assert head body).1 }
  | retracted {head : Fact} {body : List Fact} {program : Program} {outcome : Retraction}
      (done : e.table.program.retract head body = .ok (program, outcome)) :
      Remakes e (.retract head body) { e.table with program }
  | retractedAt {position : Nat} {program : Program} {c : Clause}
      (done : e.table.program.retractAt position = .ok (program, c)) :
      Remakes e (.retractAt position) { e.table with program }
  | forgot {op : Operation} {memo : Memo}
      (fewer : ∀ key trie, memo.trie? key = some trie → e.table.memo.trie? key = some trie ∧
        (e.table.memo.isEnabled key = true → memo.isEnabled key = true))
      (admitted : ∀ key, memo.isEnabled key = true → e.table.memo.isEnabled key = true ∨
        Memo.isValidKey key = true ∧ e.registry.containsKey key = false) :
      Remakes e op { e.table with memo }
  | searched {deadline : Option Nat} {passes : Nat} {goal : Fact} {stopEarly : Bool}
      {ambient : Ambient} (unreserved : goal.functor ≠ queryFunctor) :
      Remakes e (.search deadline passes goal stopEarly ambient)
        ⟨(e.table.program.pushFront (queryClause goal)).popFront,
          (e.runWithin deadline passes goal stopEarly ambient).progress.ledger.memo⟩

/-- What an operation can make of an engine. -/
inductive Becomes (e : Engine) (op : Operation) (after : Engine) : Prop
  | kept (registry : after.registry = e.registry) (tables : after.tables = e.tables)
      (active : after.active = e.active ∨ after.active < e.tables.length)
  | opened (text : String) (proper : trimmedText text ≠ "") (fresh : trimmedText text ∉ e.tableNames)
      (registry : after.registry = e.registry)
      (tables : after.tables = e.tables ++ [(trimmedText text, .empty)])
      (active : after.active = e.tables.length)
  | remade {table : Table} (remakes : Remakes e op table) (registry : after.registry = e.registry)
      (tables : after.tables = (e.withTable table).tables) (active : after.active = e.active)

variable {e : Engine} {op : Operation} {Allowed : Engine → Operation → Prop}

private theorem becomes_orSame {result : Except Refusal Engine}
    (ok : ∀ after, result = .ok after → Becomes e op after) : Becomes e op (e.orSame result) := by
  cases result with
  | ok after => exact ok after rfl
  | error _ => exact .kept rfl rfl (.inl rfl)

private theorem ok_of_map_eq_ok {α β : Type} {f : α → β} {x : Except Refusal α} {b : β}
    (h : x.map f = .ok b) : ∃ a, x = .ok a ∧ f a = b := by
  cases x with
  | ok a => exact ⟨a, rfl, Except.ok.inj h⟩
  | error _ => simp [Except.map] at h

/-- Every operation makes of an engine what `Becomes` lists. -/
theorem becomes_perform (e : Engine) (op : Operation) : Becomes e op (e.perform op) := by
  cases op with
  | assert head body =>
    refine becomes_orSame fun after hafter => ?_
    obtain ⟨_, hok, rfl⟩ := ok_of_map_eq_ok hafter
    rw [assert, refusal?] at hok
    split at hok
    · simp at hok
    · rename_i hnone
      obtain rfl := Except.ok.inj hok
      have hunreserved : head.functor ≠ queryFunctor := by
        intro heq
        simp [heq] at hnone
      have huser : e.registry.contains head.functor head.arity = false := by
        rw [if_neg hunreserved, ite_eq_right_iff] at hnone
        exact Bool.eq_false_iff.2 fun hbuiltin => by simpa using hnone hbuiltin
      exact .remade (.asserted hunreserved huser) rfl rfl rfl
  | retract head body =>
    refine becomes_orSame fun after hafter => ?_
    obtain ⟨_, hok, rfl⟩ := ok_of_map_eq_ok hafter
    rw [retract] at hok
    split at hok
    · simp at hok
    · obtain ⟨_, hdone, rfl⟩ := ok_of_map_eq_ok hok
      exact .remade (.retracted hdone) rfl rfl rfl
  | retractAt position =>
    refine becomes_orSame fun after hafter => ?_
    obtain ⟨_, hok, rfl⟩ := ok_of_map_eq_ok hafter
    obtain ⟨_, hdone, rfl⟩ := ok_of_map_eq_ok hok
    exact .remade (.retractedAt hdone) rfl rfl rfl
  | selectTable name =>
    refine becomes_orSame fun after hafter => ?_
    rw [selectTable] at hafter
    split at hafter
    · simp at hafter
    · rename_i hproper
      split at hafter
      · rename_i position hposition
        obtain rfl := Except.ok.inj hafter
        exact .kept rfl rfl (.inr (List.findIdx?_eq_some_iff_getElem.1 hposition).1)
      · rename_i hnone
        obtain rfl := Except.ok.inj hafter
        refine .opened name hproper (fun hmem => ?_) rfl rfl rfl
        obtain ⟨entry, hentry, hname⟩ := List.mem_map.1 hmem
        exact absurd hname (of_decide_eq_false (List.findIdx?_eq_none_iff.1 hnone entry hentry))
  | enableMemo key =>
    refine becomes_orSame fun after hafter => ?_
    rw [enableMemo] at hafter
    split at hafter
    · simp at hafter
    · rename_i huser
      obtain ⟨memo, hok, rfl⟩ := ok_of_map_eq_ok hafter
      rw [Memo.enable] at hok
      split at hok
      · rename_i hvalid
        split at hok
        · simp at hok
        · obtain rfl := Except.ok.inj hok
          have hremakes : Remakes e (.enableMemo key) { e.table with
              memo := { e.table.memo with enabled := e.table.memo.enabled ++ [key] } } := by
            refine .forgot (fun other trie htrie => ⟨htrie, fun hold => ?_⟩) fun other hother => ?_
            · simp only [Memo.isEnabled, decide_eq_true_eq] at hold ⊢
              exact List.mem_append_left _ hold
            · simp only [Memo.isEnabled, decide_eq_true_eq, List.mem_append,
                List.mem_singleton] at hother ⊢
              rcases hother with hold | rfl
              · exact .inl hold
              · exact .inr ⟨hvalid, Bool.eq_false_iff.2 huser⟩
          exact .remade hremakes rfl rfl rfl
      · simp at hok
  | disableMemo key =>
    refine becomes_orSame fun after hafter => ?_
    obtain ⟨memo, hok, rfl⟩ := ok_of_map_eq_ok hafter
    rw [Memo.disable] at hok
    split at hok
    · obtain rfl := Except.ok.inj hok
      refine .remade (.forgot (fun other trie htrie => ?_) fun other hother => .inl ?_) rfl rfl rfl
      · change (e.table.memo.forget key).trie? other = some trie at htrie
        rw [Memo.trie?_forget, Option.ite_none_left_eq_some] at htrie
        refine ⟨htrie.2, fun hold => ?_⟩
        simp only [Memo.isEnabled, decide_eq_true_eq] at hold ⊢
        exact List.mem_filter.2 ⟨hold, by simpa using htrie.1⟩
      · simp only [Memo.isEnabled, decide_eq_true_eq] at hother ⊢
        exact List.mem_of_mem_filter hother
    · simp at hok
  | clearMemo =>
    have hremakes : Remakes e .clearMemo { e.table with memo := e.table.memo.clear } :=
      .forgot (fun other trie htrie => by simp [Memo.trie?, Memo.clear] at htrie) fun _ => .inl
    exact .remade hremakes rfl rfl rfl
  | clearMemoKey key =>
    refine becomes_orSame fun after hafter => ?_
    obtain ⟨memo, hok, rfl⟩ := ok_of_map_eq_ok hafter
    rw [Memo.clearKey] at hok
    split at hok
    · obtain rfl := Except.ok.inj hok
      have hremakes : Remakes e (.clearMemoKey key)
          { e.table with memo := e.table.memo.forget key } := by
        refine .forgot (fun other trie htrie => ?_) fun _ => .inl
        rw [Memo.trie?_forget, Option.ite_none_left_eq_some] at htrie
        exact ⟨htrie.2, id⟩
      exact .remade hremakes rfl rfl rfl
    · simp at hok
  | setSearchTimeout timeout => exact .kept rfl rfl (.inl rfl)
  | search deadline passes goal stopEarly ambient =>
    change Becomes e _ (e.searchWithin deadline passes goal stopEarly ambient).1
    rw [searchWithin]
    split
    · exact .kept rfl rfl (.inl rfl)
    · rename_i hunreserved
      exact .remade (.searched hunreserved) rfl rfl rfl

theorem after_concat (history : List Operation) (op : Operation) :
    after (history ++ [op]) = (after history).perform op := by
  rw [after, List.foldl_concat]
  rfl

/-- A history of allowed operations leads to a reachable engine. -/
theorem reachableBy_after {history : List Operation}
    (allowed : ∀ op ∈ history, ∀ e, Allowed e op) : ReachableBy Allowed (after history) := by
  suffices ∀ e, ReachableBy Allowed e → ReachableBy Allowed (history.foldl perform e) from
    this _ (.new default)
  induction history with
  | nil => exact fun _ h => h
  | cons op rest ih =>
    rw [List.forall_mem_cons] at allowed
    exact fun e h => ih allowed.2 _ (h.perform (allowed.1 e))

/-- No operation changes the built-ins. -/
@[simp] theorem registry_perform (e : Engine) (op : Operation) :
    (e.perform op).registry = e.registry := by
  cases becomes_perform e op <;> assumption

theorem registry_after (history : List Operation) :
    (after history).registry = (Engine.new default).registry := by
  suffices ∀ e : Engine, (history.foldl perform e).registry = e.registry from this _
  induction history with
  | nil => exact fun _ => rfl
  | cons op rest ih => exact fun e => (ih (e.perform op)).trans (registry_perform e op)

@[simp] theorem length_tables_withTable (e : Engine) (table : Table) :
    (e.withTable table).tables.length = e.tables.length := by
  simp [withTable]

/-- What is put in place of the active table is the active table afterwards. -/
theorem table_withTable (active : e.active < e.tables.length) (table : Table) :
    (e.withTable table).table = table := by
  simp [Engine.table, withTable, active]

/-- Every reachable engine has an active table. -/
theorem ReachableBy.active_lt (reachable : ReachableBy Allowed e) :
    e.active < e.tables.length := by
  induction reachable with
  | new config => exact Nat.zero_lt_one
  | @perform e op _ _ ih =>
    cases becomes_perform e op with
    | kept _ tables active =>
      rw [tables]
      rcases active with active | active
      · rwa [active]
      · exact active
    | opened _ _ _ _ tables active => simp [tables, active]
    | remade _ _ tables active => simpa [tables, active] using ih

/-- What holds of all tables and of a new one holds of the active one. -/
theorem forall_table {Inv : Table → Prop} (h : ∀ entry ∈ e.tables, Inv entry.2)
    (empty : Inv .empty) : Inv e.table := by
  rw [table]
  cases hactive : e.tables[e.active]? with
  | none => exact empty
  | some entry => exact h entry (List.mem_of_getElem? hactive)

private theorem mem_tables_withTable {table : Table} {entry : String × Table}
    (h : entry ∈ (e.withTable table).tables) : entry ∈ e.tables ∨ entry.2 = table := by
  obtain ⟨i, hi, rfl⟩ := List.mem_iff_getElem.1 h
  simp only [withTable, List.getElem_modify]
  split
  · exact .inr rfl
  · exact .inl (List.getElem_mem _)

/-- A statement holds of all tables of every reachable engine if it holds of a new table and every
operation keeps it for what it makes of the active table. -/
theorem ReachableBy.tables_induction (reachable : ReachableBy Allowed e)
    (Inv : Registry → Table → Prop) (empty : ∀ r, Inv r .empty)
    (remake : ∀ e op table, ReachableBy Allowed e → Allowed e op → Inv e.registry e.table →
      Remakes e op table → Inv e.registry table) :
    ∀ entry ∈ e.tables, Inv e.registry entry.2 := by
  induction reachable with
  | new config =>
    intro entry hentry
    obtain rfl := List.mem_singleton.1 hentry
    exact empty _
  | @perform e op before allowed ih =>
    intro entry hentry
    rw [registry_perform]
    cases becomes_perform e op with
    | kept _ tables _ => exact ih entry (tables ▸ hentry)
    | opened _ _ _ _ tables _ =>
      rw [tables, List.mem_append, List.mem_singleton] at hentry
      rcases hentry with hold | rfl
      · exact ih entry hold
      · exact empty _
    | remade remakes _ tables _ =>
      rcases mem_tables_withTable (tables ▸ hentry) with hold | rfl
      · exact ih entry hold
      · exact remake e op entry.2 before allowed (forall_table ih (empty _)) remakes

/-- A statement holds of the active table of every reachable engine if it holds of a new table and
every operation keeps it for what it makes of the active table. -/
theorem ReachableBy.table_induction (reachable : ReachableBy Allowed e)
    (Inv : Registry → Table → Prop) (empty : ∀ r, Inv r .empty)
    (remake : ∀ e op table, ReachableBy Allowed e → Allowed e op → Inv e.registry e.table →
      Remakes e op table → Inv e.registry table) :
    Inv e.registry e.table :=
  forall_table (reachable.tables_induction Inv empty remake) (empty _)

/-- What the engine demands of every clause that is asserted, all clauses of all tables fulfil. -/
theorem ReachableBy.forall_clauses_tables {P : Registry → Fact → List Fact → Prop}
    (reachable : ReachableBy Allowed e)
    (asserted : ∀ e head body, Allowed e (.assert head body) → head.functor ≠ queryFunctor →
      e.registry.contains head.functor head.arity = false → P e.registry head body) :
    ∀ entry ∈ e.tables, ∀ c ∈ entry.2.program.clauses.toList, P e.registry c.head c.body := by
  refine reachable.tables_induction (fun r t => ∀ c ∈ t.program.clauses.toList, P r c.head c.body)
    (fun _ _ hc => absurd hc List.not_mem_nil) ?_
  intro e op table _ allowed ih remakes c hc
  have hold : c.facts ∈ e.table.program.facts → P e.registry c.head c.body := by
    intro hfacts
    obtain ⟨d, hd, hhead, hbody⟩ := Program.exists_clause_of_mem_facts hfacts
    exact hhead ▸ hbody ▸ ih d hd
  cases remakes with
  | @asserted head body unreserved user =>
    have hfacts := Program.mem_facts_of_mem hc
    rcases Program.facts_assert e.table.program head body with facts | facts
    · exact hold (facts ▸ hfacts)
    · rw [facts, List.mem_append, List.mem_singleton] at hfacts
      rcases hfacts with hfacts | hnew
      · exact hold hfacts
      · obtain ⟨rfl, rfl⟩ := List.cons.inj hnew
        exact asserted e _ _ allowed unreserved user
  | retracted done =>
    exact hold ((Program.facts_retract done).subset (Program.mem_facts_of_mem hc))
  | retractedAt done =>
    exact hold ((Program.facts_retractAt done).subset (Program.mem_facts_of_mem hc))
  | forgot _ => exact ih c hc
  | searched _ =>
    rw [Program.toList_popFront_pushFront] at hc
    exact ih c hc

/-- What the engine demands of every clause that is asserted, all clauses of the active table
fulfil. -/
theorem ReachableBy.forall_clauses {P : Fact → List Fact → Prop} (reachable : ReachableBy Allowed e)
    (asserted : ∀ e head body, Allowed e (.assert head body) → head.functor ≠ queryFunctor →
      P head body) :
    ∀ c ∈ e.clauses, P c.head c.body :=
  @forall_table e (fun t => ∀ c ∈ t.program.clauses.toList, P c.head c.body)
    (reachable.forall_clauses_tables (P := fun _ => P) fun e head body allowed unreserved _ =>
      asserted e head body allowed unreserved)
    fun _ hc => absurd hc List.not_mem_nil

/-- No clause of any table of a reachable engine has a head that is reserved or built-in. -/
theorem ReachableBy.heads_unprotected (reachable : ReachableBy Allowed e) :
    ∀ entry ∈ e.tables, ∀ c ∈ entry.2.program.clauses.toList,
      c.head.functor ≠ queryFunctor ∧ e.registry.contains c.head.functor c.head.arity = false :=
  reachable.forall_clauses_tables
    (P := fun r head _ => head.functor ≠ queryFunctor ∧ r.contains head.functor head.arity = false)
    fun _ _ _ _ unreserved user => ⟨unreserved, user⟩

/-- No clause of the active table has such a head. -/
theorem ReachableBy.head_unprotected (reachable : ReachableBy Allowed e) :
    ∀ c ∈ e.clauses,
      c.head.functor ≠ queryFunctor ∧ e.registry.contains c.head.functor c.head.arity = false :=
  @forall_table e (fun t => ∀ c ∈ t.program.clauses.toList,
      c.head.functor ≠ queryFunctor ∧ e.registry.contains c.head.functor c.head.arity = false)
    reachable.heads_unprotected fun _ hc => absurd hc List.not_mem_nil

end Engine

end Horn
