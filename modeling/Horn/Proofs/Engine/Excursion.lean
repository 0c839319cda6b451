import Horn.Proofs.Engine.EarlyExit
import Horn.Proofs.Engine.Refusal
import Horn.Proofs.Engine.Tables

/-!
Excursions to other tables.

An operation acts on the active table as it does in an engine that has no other table:
`Engine.isWithTable_perform`. So of a history that starts and ends at a table only those operations
count that were performed there, and an engine that performs nothing else answers alike:
`Engine.tables_isolated`.
-/

set_option autoImplicit false
set_option relaxedAutoImplicit false

namespace Horn.Engine

open Builtin (Ambient Registry)
open Search (Listing)

variable {e f : Engine} {goal : Fact}

/-! ### Engines of one table -/

/-- An engine with a single table. -/
def single (r : Registry) (t : Table) : Engine :=
  ⟨default, r, [(defaultTable, t)], 0, .zero⟩

@[simp] theorem table_single (r : Registry) (t : Table) : (single r t).table = t :=
  rfl

/-- A call that does not select a table makes of the active one what it makes of a single one, and
answers the same. -/
theorem Call.result_eq_single (e : Engine) {call : Call} (stays : ∀ name, call ≠ .selectTable name) :
    call.result e = (call.result (single e.registry e.table)).map fun (after, answer) =>
      (e.withTable after.table, answer) := by
  have hregistry : (single e.registry e.table).registry = e.registry := rfl
  have hcheck (head : Fact) : (single e.registry e.table).refusal? head = e.refusal? head := rfl
  cases call with
  | assert head body =>
    simp only [Call.result, Engine.assert, hcheck]
    cases e.refusal? head <;> rfl
  | retract head body =>
    simp only [Call.result, Engine.retract, hcheck, table_single]
    cases e.refusal? head with
    | some _ => rfl
    | none => cases e.table.program.retract head body <;> rfl
  | retractAt position =>
    simp only [Call.result, Engine.retractAt, table_single]
    cases e.table.program.retractAt position <;> rfl
  | selectTable name => exact absurd rfl (stays name)
  | enableMemo key =>
    simp only [Call.result, Engine.enableMemo, hregistry, table_single]
    cases e.registry.containsKey key with
    | true => rfl
    | false => cases e.table.memo.enable key <;> rfl
  | disableMemo key =>
    simp only [Call.result, Engine.disableMemo, table_single]
    cases e.table.memo.disable key <;> rfl
  | clearMemoKey key =>
    simp only [Call.result, Engine.clearMemoKey, table_single]
    cases e.table.memo.clearKey key <;> rfl

/-- A search makes of the active table what it makes of a single one, with the same counters and the
same report. -/
theorem searchWithin_eq_single (active : e.active < e.tables.length) (deadline : Option Nat)
    (passes : Nat) (goal : Fact) (stopEarly : Bool) (ambient : Ambient) :
    let alone := (single e.registry e.table).searchWithin deadline passes goal stopEarly ambient
    e.searchWithin deadline passes goal stopEarly ambient =
      ({ e.withTable alone.1.table with lastStats := alone.1.lastStats }, alone.2) := by
  by_cases reserved : goal.functor = queryFunctor
  · have hsame : e.withTable e.table = e := withTable_self active
    simp only [searchWithin, if_pos reserved]
    change _ = ({ e.withTable e.table with lastStats := Search.Stats.zero }, _)
    rw [hsame]
  · simp only [searchWithin, if_neg reserved]
    rfl

/-- The operation of a call. -/
def Call.operation : Call → Operation
  | .assert head body => .assert head body
  | .retract head body => .retract head body
  | .retractAt position => .retractAt position
  | .selectTable name => .selectTable name
  | .enableMemo key => .enableMemo key
  | .disableMemo key => .disableMemo key
  | .clearMemoKey key => .clearMemoKey key

theorem Call.perform_operation (e : Engine) (call : Call) :
    e.perform call.operation = e.orSame ((call.result e).map Prod.fst) := by
  have hfst (x : Except Refusal Engine) : (x.map (·, ())).map Prod.fst = x := by
    cases x <;> rfl
  cases call with
  | assert head body => rfl
  | retract head body => rfl
  | retractAt position => rfl
  | selectTable name => exact congrArg e.orSame (hfst _).symm
  | enableMemo key => exact congrArg e.orSame (hfst _).symm
  | disableMemo key => exact congrArg e.orSame (hfst _).symm
  | clearMemoKey key => exact congrArg e.orSame (hfst _).symm

/-- An engine is another one with its active table replaced, but for the settings and the counters. -/
def IsWithTable (e : Engine) (table : Table) (after : Engine) : Prop :=
  ∃ config lastStats, after = { e.withTable table with config, lastStats }

private theorem isWithTable_operation (active : e.active < e.tables.length) (call : Call)
    (stays : ∀ name, call ≠ .selectTable name) :
    e.IsWithTable ((single e.registry e.table).perform call.operation).table
      (e.perform call.operation) := by
  rw [call.perform_operation, call.perform_operation, Call.result_eq_single e stays]
  cases call.result (single e.registry e.table) with
  | ok result => exact ⟨e.config, e.lastStats, rfl⟩
  | error _ => exact ⟨e.config, e.lastStats, (withTable_self active).symm⟩

/-- An operation that does not select a table makes of the active one what it makes of a single one. -/
theorem isWithTable_perform (active : e.active < e.tables.length) {op : Operation}
    (stays : ∀ name, op ≠ .selectTable name) :
    e.IsWithTable ((single e.registry e.table).perform op).table (e.perform op) := by
  cases op with
  | assert head body => exact isWithTable_operation active (.assert head body) nofun
  | retract head body => exact isWithTable_operation active (.retract head body) nofun
  | retractAt position => exact isWithTable_operation active (.retractAt position) nofun
  | selectTable name => exact absurd rfl (stays name)
  | enableMemo key => exact isWithTable_operation active (.enableMemo key) nofun
  | disableMemo key => exact isWithTable_operation active (.disableMemo key) nofun
  | clearMemo => exact ⟨e.config, e.lastStats, rfl⟩
  | clearMemoKey key => exact isWithTable_operation active (.clearMemoKey key) nofun
  | setSearchTimeout timeout =>
    have hsame : e.withTable e.table = e := withTable_self active
    have hafter : e.setSearchTimeout timeout =
        { e.withTable e.table with config := e.config.withSearchTimeout timeout } := by
      rw [hsame, setSearchTimeout]
    exact ⟨_, _, hafter⟩
  | search deadline passes goal stopEarly ambient =>
    exact ⟨e.config, _,
      congrArg Prod.fst (searchWithin_eq_single active deadline passes goal stopEarly ambient)⟩

/-- Engines with the same built-ins make the same of equal active tables. -/
theorem table_perform_eq (active : e.active < e.tables.length) (active' : f.active < f.tables.length)
    (registry : f.registry = e.registry) (table : f.table = e.table) {op : Operation}
    (stays : ∀ name, op ≠ .selectTable name) : (f.perform op).table = (e.perform op).table := by
  obtain ⟨_, _, he⟩ := isWithTable_perform active stays
  obtain ⟨_, _, hf⟩ := isWithTable_perform active' stays
  rw [registry, table] at hf
  rw [he, hf]
  exact (table_withTable active' _).trans (table_withTable active _).symm

/-- Only a selection changes which table is active. -/
theorem currentTable_perform (active : e.active < e.tables.length) {op : Operation}
    (stays : ∀ name, op ≠ .selectTable name) : (e.perform op).currentTable = e.currentTable := by
  obtain ⟨_, _, he⟩ := isWithTable_perform active stays
  rw [he]
  exact currentTable_withTable active _

/-! ### What counts for a table -/

/-- The operations of a history that are performed while the table of a name is active and leave it
active. -/
def operationsOn (name : String) : Engine → List Operation → List Operation
  | _, [] => []
  | e, op :: rest =>
    if e.currentTable = name ∧ (e.perform op).currentTable = name then
      op :: operationsOn name (e.perform op) rest
    else operationsOn name (e.perform op) rest

/-- The second engine has what the table of a name is in the first one as its active table. -/
structure Shadows (name : String) (e f : Engine) : Prop where
  reachable : e.Reachable
  reachable' : f.Reachable
  registry : f.registry = e.registry
  mem : name ∈ e.tableNames
  current : f.currentTable = name
  same : e.tableNamed? name = some f.table

variable {name : String} {op : Operation}

/-- What is performed elsewhere need not be performed. -/
theorem Shadows.skip (h : Shadows name e f)
    (away : ¬ (e.currentTable = name ∧ (e.perform op).currentTable = name)) :
    Shadows name (e.perform op) f where
  reachable := h.reachable.perform trivial
  reachable' := h.reachable'
  registry := h.registry.trans (registry_perform e op).symm
  mem := (tableNames_prefix_perform h.reachable.active_lt op).subset h.mem
  current := h.current
  same := (h.reachable.isNamed.tableNamed?_perform h.mem (not_and_or.1 away)).trans h.same

/-- What is performed on the table is performed on its shadow. -/
theorem Shadows.perform (h : Shadows name e f) (before : e.currentTable = name)
    (after : (e.perform op).currentTable = name) : Shadows name (e.perform op) (f.perform op) := by
  have hreachable : (e.perform op).Reachable := h.reachable.perform trivial
  have hreachable' : (f.perform op).Reachable := h.reachable'.perform trivial
  have hregistry : (f.perform op).registry = (e.perform op).registry := by
    rw [registry_perform, registry_perform, h.registry]
  have hmem : name ∈ (e.perform op).tableNames := after ▸ hreachable.isNamed.currentTable_mem
  by_cases hselects : ∃ text, op = .selectTable text
  · -- The name selected is the one of the table, or it is refused; the shadow sees the same name.
    obtain ⟨text, rfl⟩ := hselects
    have hcurrent : (f.perform (.selectTable text)).currentTable = name := by
      rw [currentTable_selectTable, before] at after
      rw [currentTable_selectTable, h.current, after]
    refine ⟨hreachable, hreachable', hregistry, hmem, hcurrent, ?_⟩
    have hmem' : name ∈ f.tableNames := h.current ▸ h.reachable'.isNamed.currentTable_mem
    calc (e.perform (.selectTable text)).tableNamed? name
        = some f.table := (tableNamed?_selectTable h.mem text).trans h.same
      _ = f.tableNamed? name := (h.reachable'.isNamed.tableNamed?_of_current h.current).symm
      _ = (f.perform (.selectTable text)).tableNamed? name := (tableNamed?_selectTable hmem' text).symm
      _ = some (f.perform (.selectTable text)).table :=
          hreachable'.isNamed.tableNamed?_of_current hcurrent
  · -- All other operations depend on the built-ins and the active table only, and these are equal.
    have hstays : ∀ text, op ≠ .selectTable text := fun text heq => hselects ⟨text, heq⟩
    have htable : f.table = e.table :=
      Option.some.inj (h.same.symm.trans (h.reachable.isNamed.tableNamed?_of_current before))
    refine ⟨hreachable, hreachable', hregistry, hmem, ?_, ?_⟩
    · rw [currentTable_perform h.reachable'.active_lt hstays, h.current]
    · rw [hreachable.isNamed.tableNamed?_of_current after,
        table_perform_eq h.reachable.active_lt h.reachable'.active_lt h.registry htable hstays]

/-- A table is after a history what its operations on the table make of a shadow. -/
theorem Shadows.foldl (h : Shadows name e f) (history : List Operation) :
    Shadows name (history.foldl Engine.perform e)
      ((operationsOn name e history).foldl Engine.perform f) := by
  induction history generalizing e f with
  | nil => exact h
  | cons op rest ih =>
    rw [operationsOn]
    split
    · rename_i hstays
      exact ih (h.perform hstays.1 hstays.2)
    · rename_i haway
      exact ih (h.skip haway)

/-! ### Searches in another ambient -/

/-- What a search without a deadline finds, warns of and counts. -/
def observed (e : Engine) (passes : Nat) (goal : Fact) (stopEarly : Bool) (ambient : Ambient) :
    Option (List Fact) × List Warning × Search.Stats :=
  let done := e.searchWithin none passes goal stopEarly ambient
  (done.2.found, done.2.warnings, done.1.lastStats)

/-- With deterministic built-ins a search without a deadline leaves the same engine in every ambient. -/
theorem CallsDeterministic.searchWithin_fst_eq (h : e.CallsDeterministic goal) (passes : Nat)
    (stopEarly : Bool) (ambient ambient' : Ambient) :
    (e.searchWithin none passes goal stopEarly ambient).1 =
      (e.searchWithin none passes goal stopEarly ambient').1 := by
  by_cases reserved : goal.functor = queryFunctor
  · simp only [searchWithin, if_pos reserved]
  · have halike := (h.alike passes stopEarly ambient ambient').2
    rw [searchWithin_fst reserved, searchWithin_fst reserved, halike.ledger.memo, halike.ledger.stats]

/-- It finds the same as well. -/
theorem CallsDeterministic.found_eq_found (h : e.CallsDeterministic goal) (passes : Nat)
    (stopEarly : Bool) (ambient ambient' : Ambient) :
    (e.searchWithin none passes goal stopEarly ambient).2.found =
      (e.searchWithin none passes goal stopEarly ambient').2.found := by
  by_cases reserved : goal.functor = queryFunctor
  · simp only [searchWithin, if_pos reserved]
  · obtain ⟨hended, halike⟩ := h.alike passes stopEarly ambient ambient'
    have hanswers := halike.answers_eq stopEarly
    rw [found_eq reserved, found_eq reserved]
    generalize e.listing none passes goal stopEarly ambient = run at hended hanswers
    generalize e.listing none passes goal stopEarly ambient' = run' at hended hanswers
    obtain ⟨ended, p⟩ := run
    obtain ⟨ended', p'⟩ := run'
    obtain rfl : ended = ended' := hended
    cases ended with
    | false => rfl
    | true => exact congrArg (fun answers => some (answers.map (Fact.ofLiterals goal.functor))) hanswers

/-- The warnings of a search are those that its counters call for. -/
theorem warnings_eq (unreserved : goal.functor ≠ queryFunctor) (deadline : Option Nat) (passes : Nat)
    (stopEarly : Bool) (ambient : Ambient) :
    (e.searchWithin deadline passes goal stopEarly ambient).2.warnings =
      (e.searchWithin deadline passes goal stopEarly ambient).1.lastStats.undefined.map
        .undefinedPredicate := by
  rw [searchWithin, if_neg unreserved]

theorem CallsDeterministic.observed_eq (h : e.CallsDeterministic goal) (passes : Nat)
    (stopEarly : Bool) (ambient ambient' : Ambient) :
    e.observed passes goal stopEarly ambient = e.observed passes goal stopEarly ambient' := by
  by_cases reserved : goal.functor = queryFunctor
  · simp only [observed, searchWithin, if_pos reserved]
  · have hfound := h.found_eq_found passes stopEarly ambient ambient'
    have hafter := h.searchWithin_fst_eq passes stopEarly ambient ambient'
    simp only [observed, hfound, warnings_eq reserved, hafter]

/-! ### Operations done over again -/

/-- An operation is done over again: the same one, or a search without a deadline in another ambient, if
the built-ins that it calls are deterministic. -/
inductive Redoes (e : Engine) : Operation → Operation → Prop
  | same (op : Operation) : Redoes e op op
  | search {goal : Fact} (deterministic : e.CallsDeterministic goal) (passes : Nat) (stopEarly : Bool)
      (ambient ambient' : Ambient) :
      Redoes e (.search none passes goal stopEarly ambient) (.search none passes goal stopEarly ambient')

/-- The operations of a history are done over again, each on the engine that it is performed on. -/
inductive RedoesAll : Engine → List Operation → List Operation → Prop
  | nil (e : Engine) : RedoesAll e [] []
  | cons {e : Engine} {op op' : Operation} {ops ops' : List Operation} (redoes : Redoes e op op')
      (rest : RedoesAll (e.perform op) ops ops') : RedoesAll e (op :: ops) (op' :: ops')

theorem Redoes.perform_eq {op op' : Operation} (h : Redoes e op op') : e.perform op = e.perform op' := by
  cases h with
  | same => rfl
  | search deterministic passes stopEarly ambient ambient' =>
    exact deterministic.searchWithin_fst_eq passes stopEarly ambient ambient'

theorem Redoes.observed_eq {passes : Nat} {stopEarly : Bool} {ambient ambient' : Ambient}
    (h : Redoes e (.search none passes goal stopEarly ambient)
      (.search none passes goal stopEarly ambient')) :
    e.observed passes goal stopEarly ambient = e.observed passes goal stopEarly ambient' := by
  cases h with
  | same => rfl
  | search deterministic => exact deterministic.observed_eq passes stopEarly ambient ambient'

/-- Operations done over again lead to the same engine. -/
theorem RedoesAll.foldl_eq {ops ops' : List Operation} (h : RedoesAll e ops ops') :
    ops.foldl perform e = ops'.foldl perform e := by
  induction h with
  | nil => rfl
  | cons redoes _ ih => rw [List.foldl_cons, ih, redoes.perform_eq, List.foldl_cons]

/-! ### Answers -/

/-- Two engines have equal active tables and answer alike: they refuse the same calls for the same cause,
give the same answers to all others, make the same of their tables, and a search without a deadline
finds, warns of and counts the same. -/
structure AnswersAlike (e f : Engine) : Prop where
  table : e.table = f.table
  calls : ∀ call : Call, (call.result e).map Prod.snd = (call.result f).map Prod.snd
  tables : ∀ op, (∀ name, op ≠ .selectTable name) → (e.perform op).table = (f.perform op).table
  searches : ∀ passes goal stopEarly ambient ambient',
    Redoes e (.search none passes goal stopEarly ambient) (.search none passes goal stopEarly ambient') →
      e.observed passes goal stopEarly ambient = f.observed passes goal stopEarly ambient'

private theorem map_snd_result {call : Call} (stays : ∀ name, call ≠ .selectTable name) :
    (call.result e).map Prod.snd = (call.result (single e.registry e.table)).map Prod.snd := by
  rw [Call.result_eq_single e stays]
  cases call.result (single e.registry e.table) <;> rfl

private theorem map_snd_selectTable (e : Engine) (text : String) :
    (Call.result e (.selectTable text)).map Prod.snd =
      if trimmedText text = "" then .error .invalidTableName else .ok () := by
  rw [Call.result, selectTable]
  split
  · rfl
  · split <;> rfl

/-- Engines with the same built-ins and equal active tables answer alike. -/
theorem answersAlike_of_eq (active : e.active < e.tables.length) (active' : f.active < f.tables.length)
    (registry : e.registry = f.registry) (table : e.table = f.table) : AnswersAlike e f where
  table := table
  calls call := by
    by_cases hselects : ∃ text, call = .selectTable text
    · obtain ⟨text, rfl⟩ := hselects
      exact (map_snd_selectTable e text).trans (map_snd_selectTable f text).symm
    · have hstays : ∀ text, call ≠ .selectTable text := fun text heq => hselects ⟨text, heq⟩
      have hcall := map_snd_result (e := e) hstays
      rw [registry, table] at hcall
      exact hcall.trans (map_snd_result hstays).symm
  tables op stays := table_perform_eq active' active registry table stays
  searches passes goal stopEarly ambient ambient' redoes := by
    rw [redoes.observed_eq, observed, observed, searchWithin_eq_single active,
      searchWithin_eq_single active', registry, table]

/-- The active position of a reachable engine denotes a table, the names of its tables differ and are
trimmed and not empty, and no history takes one away or moves it. An operation changes no table that is
not active, and a history that starts and ends at a table has made of it what its operations on the table
alone would have made: an engine that performs only these, the searches possibly in another ambient,
answers alike. -/
theorem tables_isolated (reachable : e.Reachable) :
    e.IsNamed ∧ e.tableNamed? e.currentTable = some e.table ∧
      (∀ history : List Operation, e.tableNames <+: (history.foldl perform e).tableNames) ∧
      (∀ name ∈ e.tableNames, e.currentTable ≠ name →
        ∀ op, (e.perform op).tableNamed? name = e.tableNamed? name) ∧
      ∀ history others : List Operation, e.RedoesAll (operationsOn e.currentTable e history) others →
        (history.foldl perform e).currentTable = e.currentTable →
          AnswersAlike (history.foldl perform e) (others.foldl perform e) := by
  have hnamed := reachable.isNamed
  refine ⟨hnamed, hnamed.tableNamed?_of_current rfl,
    fun history => reachable.tableNames_prefix fun _ _ _ => trivial,
    fun name mem away op => hnamed.tableNamed?_perform mem (.inl away), ?_⟩
  intro history others redoes back
  have hstart : Shadows e.currentTable e e :=
    ⟨reachable, reachable, rfl, hnamed.currentTable_mem, rfl, hnamed.tableNamed?_of_current rfl⟩
  have hshadows := hstart.foldl history
  have htable := hshadows.same.symm.trans (hshadows.reachable.isNamed.tableNamed?_of_current back)
  rw [← redoes.foldl_eq]
  exact answersAlike_of_eq hshadows.reachable.active_lt hshadows.reachable'.active_lt
    hshadows.registry.symm (Option.some.inj htable).symm

/-- A table `a` with the fact `p(1)`, where `p/1` is memoized. -/
def tableA : Engine :=
  after [.selectTable " a ", .assert (unaryAt "p" 1) [], .enableMemo "p/1"]

/-- A second fact and a search for `p`, and between them a visit to two other tables: a clause of theirs,
a retraction and an assertion that are refused, a search, and the memo. -/
def awayAndBack : List Operation :=
  [.assert (unaryAt "p" 2) [], .selectTable "b", .assert (unaryAt "p" 3) [], .retractAt 7,
    .search none 9 (unaryOpen "p") false default, .selectTable "0", .assert (unaryAt queryFunctor 4) [],
    .clearMemo, .selectTable "a", .search none 9 (unaryOpen "p") false default]

/-- What counts of this for the table `a`, with another clock. -/
def stayed : List Operation :=
  [.assert (unaryAt "p" 2) [], .search none 9 (unaryOpen "p") false ⟨[], 7, 5⟩]

theorem tables_isolated_tableA :
    tableA.Reachable ∧ tableA.IsNamed ∧ tableA.RedoesAll (operationsOn "a" tableA awayAndBack) stayed ∧
      (awayAndBack.foldl perform tableA).currentTable = "a" ∧
      AnswersAlike (awayAndBack.foldl perform tableA) (stayed.foldl perform tableA) := by
  have hreachable : tableA.Reachable := reachableBy_after fun _ _ _ => trivial
  have hown : operationsOn "a" tableA awayAndBack =
      [.assert (unaryAt "p" 2) [], .search none 9 (unaryOpen "p") false default] := by
    with_unfolding_all rfl
  have hcurrent : tableA.currentTable = "a" := by with_unfolding_all rfl
  have hback : (awayAndBack.foldl perform tableA).currentTable = "a" := by with_unfolding_all rfl
  have hquiet : (tableA.perform (.assert (unaryAt "p" 2) [])).CallsDeterministic (unaryOpen "p") :=
    callsDeterministic_of_ne (by decide +kernel)
  have hredoes : tableA.RedoesAll (operationsOn "a" tableA awayAndBack) stayed := by
    rw [hown]
    exact .cons (.same _) (.cons (.search hquiet 9 false default ⟨[], 7, 5⟩) (.nil _))
  obtain ⟨hnamed, -, -, -, halike⟩ := tables_isolated hreachable
  rw [hcurrent] at halike
  exact ⟨hreachable, hnamed, hredoes, hback, halike awayAndBack stayed hredoes hback⟩

end Horn.Engine
