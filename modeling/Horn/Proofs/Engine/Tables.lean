import Mathlib.Data.List.Nodup
import Horn.Proofs.Engine.Restoration

/-!
The tables of an engine by their names.

Every table of a reachable engine has a name of its own, and a name once given stays where it is. An
operation changes at most the table that is active before it: `Engine.IsNamed.tableNamed?_perform`.
-/

set_option autoImplicit false
set_option relaxedAutoImplicit false

namespace Horn

/-! ### Texts without blanks at their ends -/

/-- Neither the first nor the last character is a blank. -/
def IsTrimmed (text : String) : Prop :=
  (∀ c ∈ text.toList.head?, isBlank c = false) ∧ ∀ c ∈ text.toList.getLast?, isBlank c = false

private theorem isBlank_head_dropBlanks (text : List Char) :
    ∀ c ∈ (dropBlanks text).head?, isBlank c = false := by
  induction text with
  | nil => simp [dropBlanks]
  | cons first rest ih =>
    rw [dropBlanks, List.dropWhile_cons]
    split
    · exact ih
    · rename_i hfirst
      intro c hc
      obtain rfl : first = c := by simpa using hc
      exact Bool.eq_false_iff.2 hfirst

private theorem mem_head?_of_front {as bs : List Char} (h : as <+: bs) :
    ∀ c ∈ as.head?, c ∈ bs.head? := by
  obtain ⟨rest, rfl⟩ := h
  intro c hc
  cases as with
  | nil => cases hc
  | cons a as => exact hc

theorem isTrimmed_trimmedText (text : String) : IsTrimmed (trimmedText text) := by
  let front := dropBlanks text.toList
  have hlist : (trimmedText text).toList = (dropBlanks front.reverse).reverse := by
    rw [trimmedText, String.toList_ofList]
  have hprefix : (dropBlanks front.reverse).reverse <+: front := by
    rw [← List.reverse_suffix, List.reverse_reverse]
    exact List.dropWhile_suffix _
  rw [IsTrimmed, hlist, List.getLast?_reverse]
  constructor
  · intro c hc
    exact isBlank_head_dropBlanks text.toList c (mem_head?_of_front hprefix c hc)
  · exact isBlank_head_dropBlanks front.reverse

namespace Engine

variable {e : Engine} {Allowed : Engine → Operation → Prop}

/-! ### Names -/

/-- The active position denotes a table, and the tables have names that differ, are not empty and are
trimmed. -/
structure IsNamed (e : Engine) : Prop where
  active : e.active < e.tables.length
  distinct : e.tableNames.Nodup
  nonempty : ∀ name ∈ e.tableNames, name ≠ ""
  trimmed : ∀ name ∈ e.tableNames, IsTrimmed name

theorem tableNames_withTable (active : e.active < e.tables.length) (table : Table) :
    (e.withTable table).tableNames = e.tableNames := by
  obtain ⟨before, name, behind, -, htables, hwith⟩ := exists_tables_eq active
  rw [tableNames, tableNames, hwith, htables]
  simp

/-- An operation leaves the names of tables as they are, or adds one behind them. -/
theorem tableNames_perform (active : e.active < e.tables.length) (op : Operation) :
    (e.perform op).tableNames = e.tableNames ∨
      ∃ text, trimmedText text ≠ "" ∧ trimmedText text ∉ e.tableNames ∧
        (e.perform op).tableNames = e.tableNames ++ [trimmedText text] := by
  cases becomes_perform e op with
  | kept _ tables _ => exact .inl (congrArg (List.map Prod.fst) tables)
  | opened text proper fresh _ tables _ =>
    refine .inr ⟨text, proper, fresh, ?_⟩
    rw [tableNames, tables, List.map_append]
    rfl
  | remade _ _ tables _ =>
    refine .inl ?_
    rw [tableNames, tables]
    exact tableNames_withTable active _

theorem ReachableBy.isNamed (reachable : ReachableBy Allowed e) : e.IsNamed := by
  induction reachable with
  | new config =>
    refine ⟨Nat.zero_lt_one, List.nodup_singleton _, ?_, ?_⟩
    · intro name hname
      obtain rfl := List.mem_singleton.1 hname
      decide
    · intro name hname
      obtain rfl := List.mem_singleton.1 hname
      have htrim : trimmedText defaultTable = defaultTable := by decide
      exact htrim ▸ isTrimmed_trimmedText defaultTable
  | @perform e op before allowed ih =>
    have hactive := (before.perform allowed).active_lt
    rcases tableNames_perform ih.active op with hnames | ⟨text, hproper, hfresh, hnames⟩
    · exact ⟨hactive, hnames ▸ ih.distinct, hnames ▸ ih.nonempty, hnames ▸ ih.trimmed⟩
    · refine ⟨hactive, ?_, ?_, ?_⟩
      · rw [hnames]
        exact ih.distinct.append (List.nodup_singleton _) (by simpa using hfresh)
      · rw [hnames, List.forall_mem_append]
        exact ⟨ih.nonempty, List.forall_mem_singleton.2 hproper⟩
      · rw [hnames, List.forall_mem_append]
        exact ⟨ih.trimmed, List.forall_mem_singleton.2 (isTrimmed_trimmedText text)⟩

theorem tableNames_prefix_perform (active : e.active < e.tables.length) (op : Operation) :
    e.tableNames <+: (e.perform op).tableNames := by
  rcases tableNames_perform active op with hnames | ⟨text, -, -, hnames⟩
  · exact hnames ▸ List.prefix_rfl
  · rw [hnames]
    exact List.prefix_append _ _

/-- No history takes a name away or moves it. -/
theorem ReachableBy.tableNames_prefix (reachable : ReachableBy Allowed e) {history : List Operation}
    (allowed : ∀ op ∈ history, ∀ e, Allowed e op) :
    e.tableNames <+: (history.foldl Engine.perform e).tableNames := by
  induction history generalizing e with
  | nil => exact List.prefix_rfl
  | cons op rest ih =>
    rw [List.forall_mem_cons] at allowed
    exact (tableNames_prefix_perform reachable.active_lt op).trans
      (ih (reachable.perform (allowed.1 e)) allowed.2)

/-! ### Tables by name -/

/-- The table with a name. -/
def tableNamed? (e : Engine) (name : String) : Option Table :=
  e.tables.lookup name

private theorem lookup_append_cons {before behind : List (String × Table)} {name : String}
    {table : Table} (fresh : name ∉ before.map Prod.fst) :
    (before ++ (name, table) :: behind).lookup name = some table := by
  induction before with
  | nil => simp
  | cons entry before ih =>
    obtain ⟨other, _⟩ := entry
    rw [List.map_cons, List.mem_cons, not_or] at fresh
    rw [List.cons_append, List.lookup_cons, beq_eq_false_iff_ne.2 fresh.1]
    exact ih fresh.2

private theorem lookup_append_of_ne {before behind : List (String × Table)} {name other : String}
    (differ : other ≠ name) (table : Table) :
    (before ++ (name, table) :: behind).lookup other = (before ++ behind).lookup other := by
  induction before with
  | nil => simp [List.lookup_cons, beq_eq_false_iff_ne.2 differ]
  | cons entry before ih =>
    obtain ⟨key, _⟩ := entry
    simp only [List.cons_append, List.lookup_cons, ih]

private theorem exists_named_tables (active : e.active < e.tables.length) :
    ∃ before behind, e.tables = before ++ (e.currentTable, e.table) :: behind ∧
      ∀ table, (e.withTable table).tables = before ++ (e.currentTable, table) :: behind := by
  obtain ⟨before, name, behind, hlength, htables, hwith⟩ := exists_tables_eq active
  have hname : e.currentTable = name := by
    rw [currentTable, htables, ← hlength, List.getElem?_append_right (Nat.le_refl _), Nat.sub_self]
    rfl
  rw [hname]
  exact ⟨before, behind, htables, hwith⟩

theorem IsNamed.currentTable_mem (named : e.IsNamed) : e.currentTable ∈ e.tableNames := by
  obtain ⟨before, behind, htables, -⟩ := exists_named_tables named.active
  rw [tableNames, htables]
  simp

/-- The active table is the one with its name. -/
theorem IsNamed.tableNamed?_of_current (named : e.IsNamed) {name : String}
    (current : e.currentTable = name) : e.tableNamed? name = some e.table := by
  subst current
  obtain ⟨before, behind, htables, -⟩ := exists_named_tables named.active
  have hdistinct := named.distinct
  rw [tableNames, htables, List.map_append, List.map_cons] at hdistinct
  rw [tableNamed?, htables]
  refine lookup_append_cons fun hmem => ?_
  exact List.disjoint_of_nodup_append hdistinct hmem List.mem_cons_self

theorem currentTable_withTable (active : e.active < e.tables.length) (table : Table) :
    (e.withTable table).currentTable = e.currentTable := by
  have hnames := tableNames_withTable active table
  have hcurrent (f : Engine) : f.currentTable = (f.tableNames[f.active]?).getD defaultTable := by
    rw [currentTable, tableNames, List.getElem?_map]
  rw [hcurrent, hnames, hcurrent]
  rfl

/-- An operation changes no table but one that is active both before and after it. -/
theorem IsNamed.tableNamed?_perform (named : e.IsNamed) {name : String} (mem : name ∈ e.tableNames)
    {op : Operation} (away : e.currentTable ≠ name ∨ (e.perform op).currentTable ≠ name) :
    (e.perform op).tableNamed? name = e.tableNamed? name := by
  cases becomes_perform e op with
  | kept _ tables _ => rw [tableNamed?, tables, tableNamed?]
  | opened text _ fresh _ tables _ =>
    have hne : name ≠ trimmedText text := by
      rintro rfl
      exact fresh mem
    rw [tableNamed?, tables, lookup_append_of_ne hne, List.append_nil, tableNamed?]
  | @remade table _ _ tables active =>
    have hstays : (e.perform op).currentTable = e.currentTable := by
      rw [currentTable, tables, active]
      exact currentTable_withTable named.active table
    have hother : name ≠ e.currentTable := (away.elim id (hstays ▸ id)).symm
    obtain ⟨before, behind, htables, hwith⟩ := exists_named_tables named.active
    rw [tableNamed?, tables, hwith, lookup_append_of_ne hother, tableNamed?, htables,
      lookup_append_of_ne hother]

/-- To make a table active changes none. -/
theorem tableNamed?_selectTable {name : String} (mem : name ∈ e.tableNames) (text : String) :
    (e.perform (.selectTable text)).tableNamed? name = e.tableNamed? name := by
  change (e.orSame (e.selectTable text)).tableNamed? name = _
  rw [selectTable]
  split
  · rfl
  · split
    · rfl
    · rename_i hnone
      have hne : name ≠ trimmedText text := by
        rintro rfl
        obtain ⟨entry, hentry, hname⟩ := List.mem_map.1 mem
        exact absurd hname (of_decide_eq_false (List.findIdx?_eq_none_iff.1 hnone entry hentry))
      change (e.tables ++ [(trimmedText text, Table.empty)]).lookup name = _
      rw [lookup_append_of_ne hne, List.append_nil, tableNamed?]

/-- The table that was selected is active. -/
theorem currentTable_selectTable (e : Engine) (text : String) :
    (e.perform (.selectTable text)).currentTable =
      if trimmedText text = "" then e.currentTable else trimmedText text := by
  change (e.orSame (e.selectTable text)).currentTable = _
  rw [selectTable]
  split
  · rfl
  · split
    · rename_i position hposition
      obtain ⟨hlt, hname, -⟩ := List.findIdx?_eq_some_iff_getElem.1 hposition
      change ((e.tables[position]?).map Prod.fst).getD defaultTable = _
      rw [List.getElem?_eq_getElem hlt]
      exact of_decide_eq_true hname
    · change (((e.tables ++ [(trimmedText text, Table.empty)])[e.tables.length]?).map Prod.fst).getD
        defaultTable = _
      rw [List.getElem?_concat_length]
      rfl

end Engine

end Horn
