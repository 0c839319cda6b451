import Horn.Proofs.Engine.Retention
import Horn.Proofs.Program.Uniqueness
import Horn.Proofs.Search.Recording

/-!
What a search leaves behind.

The clause of a query stands in front of the program only while the search runs. Afterwards, however
the search ended, the engine is the one from before with a memo that has grown:
`Engine.exists_searchWithin_eq`.
-/

set_option autoImplicit false
set_option relaxedAutoImplicit false

namespace Horn.Engine

open Builtin (Ambient)

variable {e : Engine} {Allowed : Engine → Operation → Prop}

/-- Assertions and retractions build the program of every reachable engine; a search puts it back. -/
theorem ReachableBy.program_reachable (reachable : ReachableBy Allowed e) : e.table.program.Reachable := by
  refine reachable.table_induction (fun _ t => t.program.Reachable) (fun _ => .empty) ?_
  intro e op table _ _ ih remakes
  cases remakes with
  | asserted _ => exact ih.assert _ _
  | retracted done => exact ih.retract done
  | retractedAt done => exact ih.retractAt done
  | forgot _ => exact ih
  | searched _ =>
    rw [Program.popFront_pushFront ih.isIndexed]
    exact ih

theorem grownFrom_runWithin (e : Engine) (deadline : Option Nat) (passes : Nat) (goal : Fact)
    (stopEarly : Bool) (ambient : Ambient) :
    (e.runWithin deadline passes goal stopEarly ambient).progress.ledger.memo.GrownFrom
      e.table.memo := by
  rw [runWithin_eq, Search.Listing.progress_outcome]
  exact Search.Listing.grownFrom_run

/-- The tables of an engine, with what stands before and behind the active one. -/
theorem exists_tables_eq (active : e.active < e.tables.length) :
    ∃ before name behind, before.length = e.active ∧ e.tables = before ++ (name, e.table) :: behind ∧
      ∀ table, (e.withTable table).tables = before ++ (name, table) :: behind := by
  have htable : e.table = e.tables[e.active].2 := by
    rw [Engine.table, List.getElem?_eq_getElem active]
    rfl
  have hlength : (e.tables.take e.active).length = e.active := by
    rw [List.length_take]
    omega
  refine ⟨e.tables.take e.active, e.tables[e.active].1, e.tables.drop (e.active + 1), hlength, ?_, ?_⟩
  · rw [htable, List.getElem_cons_drop, List.take_append_drop]
  · exact fun table => List.modify_eq_take_cons_drop active

theorem withTable_self (active : e.active < e.tables.length) : e.withTable e.table = e := by
  have htables : (e.withTable e.table).tables = e.tables := by
    obtain ⟨before, name, behind, -, htables, hwith⟩ := exists_tables_eq active
    rw [hwith, ← htables]
  calc e.withTable e.table = { e with tables := (e.withTable e.table).tables } := rfl
    _ = e := by rw [htables]

/-- The engine after a search is the one before, with a memo that has grown and other counters. -/
theorem exists_searchWithin_eq (reachable : e.Reachable) (goal : Fact) (deadline : Option Nat)
    (passes : Nat) (stopEarly : Bool) (ambient : Ambient) :
    ∃ memo stats, (e.searchWithin deadline passes goal stopEarly ambient).1 =
        { e.withMemo memo with lastStats := stats } ∧ memo.GrownFrom e.table.memo := by
  by_cases reserved : goal.functor = queryFunctor
  · have hsame : e.withMemo e.table.memo = e := withTable_self reachable.active_lt
    refine ⟨e.table.memo, .zero, ?_, .refl _⟩
    rw [searchWithin, if_pos reserved, hsame]
  · have hprogram : (e.table.program.pushFront (queryClause goal)).popFront = e.table.program :=
      Program.popFront_pushFront reachable.program_reachable.isIndexed _
    have hgrown := e.grownFrom_runWithin deadline passes goal stopEarly ambient
    refine ⟨_, (e.runWithin deadline passes goal stopEarly ambient).progress.ledger.stats, ?_, hgrown⟩
    rw [searchWithin, if_neg reserved]
    simp only [hprogram]
    rfl

/-- The programs of all tables, in the order of the tables. -/
def programs (e : Engine) : List Program :=
  e.tables.map fun entry => entry.2.program

/-- An engine is another one but for the counters and the memo of the active table. There the same
predicates are memoized, nothing that was cached is lost, and nothing is cached for other predicates. -/
structure IsRestored (e after : Engine) : Prop where
  programs : after.programs = e.programs
  tableNames : after.tableNames = e.tableNames
  active : after.active = e.active
  config : after.config = e.config
  registry : after.registry = e.registry
  others : ∀ i, i ≠ e.active → after.tables[i]? = e.tables[i]?
  enabled : after.table.memo.enabled = e.table.memo.enabled
  cached : ∀ key values, e.table.memo.Caches key values → after.table.memo.Caches key values
  confined : ∀ key values, after.table.memo.Caches key values →
    after.table.memo.isEnabled key = true

private theorem isRestored_withMemo (active : e.active < e.tables.length) {memo : Memo}
    (grown : memo.GrownFrom e.table.memo) (confined : memo.IsConfined) (stats : Search.Stats) :
    IsRestored e { e.withMemo memo with lastStats := stats } := by
  obtain ⟨before, name, behind, hlength, htables, hwith⟩ := exists_tables_eq active
  have hafter : (e.withMemo memo).tables = before ++ (name, { e.table with memo }) :: behind :=
    hwith _
  have hmemo : (e.withMemo memo).table.memo = memo := by
    rw [withMemo, table_withTable active]
  constructor
  case programs =>
    change (e.withMemo memo).programs = e.programs
    rw [Engine.programs, Engine.programs, hafter, htables]
    simp
  case tableNames =>
    change (e.withMemo memo).tableNames = e.tableNames
    rw [Engine.tableNames, Engine.tableNames, hafter, htables]
    simp
  case active => rfl
  case config => rfl
  case registry => rfl
  case others =>
    intro i hi
    change (e.withMemo memo).tables[i]? = e.tables[i]?
    rw [hafter, htables]
    rcases Nat.lt_or_gt_of_ne hi with hlt | hgt
    · rw [List.getElem?_append_left (by omega), List.getElem?_append_left (by omega)]
    · obtain ⟨j, rfl⟩ : ∃ j, i = before.length + (j + 1) := ⟨i - before.length - 1, by omega⟩
      rw [List.getElem?_append_right (by omega), List.getElem?_append_right (by omega)]
      simp
  case enabled => exact (congrArg Memo.enabled hmemo).trans grown.enabled
  case cached =>
    intro key values hcached
    change (e.withMemo memo).table.memo.Caches key values
    rw [hmemo]
    exact grown.caches key values hcached
  case confined =>
    change ∀ key values, (e.withMemo memo).table.memo.Caches key values →
      (e.withMemo memo).table.memo.isEnabled key = true
    rw [hmemo]
    exact fun key values => confined.isEnabled_of_caches

/-- However a search ends, and wherever it is cut off, it leaves no trace but in the memo of the active
table. -/
theorem search_restores (reachable : e.Reachable) (goal : Fact) (deadline : Option Nat)
    (passes : Nat) (stopEarly : Bool) (ambient : Ambient) :
    IsRestored e (e.searchWithin deadline passes goal stopEarly ambient).1 := by
  have hreachable : (e.perform (.search deadline passes goal stopEarly ambient)).Reachable :=
    reachable.perform trivial
  have hconfined := hreachable.memo_confined
  obtain ⟨memo, stats, hafter, hgrown⟩ :=
    exists_searchWithin_eq reachable goal deadline passes stopEarly ambient
  rw [perform, hafter] at hconfined
  change (e.withMemo memo).table.memo.IsConfined at hconfined
  rw [withMemo, table_withTable reachable.active_lt] at hconfined
  rw [hafter]
  exact isRestored_withMemo reachable.active_lt hgrown hconfined stats

/-- Two tables with a memoized predicate each; the second one is active. -/
def twoTables : Engine :=
  after [.assert (unaryAt "p" 1) [], .enableMemo "p/1", .search none 9 (unaryAt "p" 1) false default,
    .selectTable "second", .assert (unaryAt "q" 1) [], .assert (unaryOpen "r") [unaryOpen "q"],
    .enableMemo "r/1"]

/-- A search that is cut off after its second pass. -/
theorem search_restores_twoTables : twoTables.Reachable ∧
    (twoTables.searchWithin none 2 (unaryOpen "r") false default).2.found = none ∧
    IsRestored twoTables (twoTables.searchWithin none 2 (unaryOpen "r") false default).1 := by
  have hreachable : twoTables.Reachable := reachableBy_after fun _ _ _ => trivial
  refine ⟨hreachable, ?_, search_restores hreachable _ _ _ _ _⟩
  rw [found_eq (by decide)]
  with_unfolding_all rfl

end Horn.Engine
