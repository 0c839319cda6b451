import Horn.Config
import Horn.Search.Run
import Horn.Text.Blank

/-!
The engine: named tables of clauses, one of which is active.

Clauses, the memo and searches belong to the active table. A search puts a clause for the query in
front of the program, runs the loop, and takes the clause out again.
-/

set_option autoImplicit false
set_option relaxedAutoImplicit false

namespace Horn

open Builtin (Registry Ambient)

/-- A program with its memo. -/
structure Table where
  program : Program
  memo : Memo

namespace Table

def empty : Table := ⟨∅, ∅⟩

instance : Inhabited Table := ⟨empty⟩

end Table

/-- An engine: its settings, its built-ins, its tables with the position of the active one, and the
counters of the last search. -/
structure Engine where
  config : Config
  registry : Registry
  tables : List (String × Table)
  active : Nat
  lastStats : Search.Stats

namespace Engine

/-- The table that every engine has from the start. -/
def defaultTable : String := "0"

/-- The functor of the clause that stands for a query. -/
def queryFunctor : String := "$query"

/-- An engine with an empty table. -/
def new (config : Config) : Engine :=
  ⟨config, ⟨config.maxVariadicArity⟩, [(defaultTable, .empty)], 0, .zero⟩

instance : Inhabited Engine := ⟨new default⟩

/-- The active table. -/
def table (e : Engine) : Table :=
  ((e.tables[e.active]?).map Prod.snd).getD .empty

/-- Puts a table in place of the active one. -/
def withTable (e : Engine) (table : Table) : Engine :=
  { e with tables := e.tables.modify e.active fun (name, _) => (name, table) }

def withProgram (e : Engine) (program : Program) : Engine :=
  e.withTable { e.table with program }

def withMemo (e : Engine) (memo : Memo) : Engine :=
  e.withTable { e.table with memo }

def setSearchTimeout (e : Engine) (timeout : Duration) : Engine :=
  { e with config := e.config.withSearchTimeout timeout }

/-- Why clauses with this head cannot be asserted or retracted by declaration. -/
def refusal? (e : Engine) (head : Fact) : Option Refusal :=
  if head.functor = queryFunctor then some (.reservedPredicate head.functor)
  else if e.registry.contains head.functor head.arity then some (.builtinPredicate head.key)
  else none

/-- Asserts a clause in the active table. -/
def assert (e : Engine) (head : Fact) (body : List Fact) : Except Refusal (Engine × Assertion) :=
  match e.refusal? head with
  | some refusal => .error refusal
  | none =>
    let (program, outcome) := e.table.program.assert head body
    .ok (e.withProgram program, outcome)

/-- Takes back one assertion of a clause of the active table. -/
def retract (e : Engine) (head : Fact) (body : List Fact) : Except Refusal (Engine × Retraction) :=
  match e.refusal? head with
  | some refusal => .error refusal
  | none =>
    (e.table.program.retract head body).map fun (program, outcome) =>
      (e.withProgram program, outcome)

/-- Removes the clause at a position of the active table and returns it. -/
def retractAt (e : Engine) (position : Nat) : Except Refusal (Engine × Clause) :=
  (e.table.program.retractAt position).map fun (program, c) => (e.withProgram program, c)

/-- The clauses of the active table, in order. -/
def clauses (e : Engine) : List Clause :=
  e.table.program.clauses.toList

def clauseCount (e : Engine) : Nat :=
  e.table.program.size

/-- Makes a table active; a name that is new gets an empty table. Blanks around a name do not
count. -/
def selectTable (e : Engine) (name : String) : Except Refusal Engine :=
  let name := trimmedText name
  if name = "" then .error .invalidTableName
  else
    match e.tables.findIdx? fun entry => entry.1 = name with
    | some position => .ok { e with active := position }
    | none => .ok { e with tables := e.tables ++ [(name, .empty)], active := e.tables.length }

/-- The name of the active table. -/
def currentTable (e : Engine) : String :=
  ((e.tables[e.active]?).map Prod.fst).getD defaultTable

/-- The names of all tables in the order of their creation. -/
def tableNames (e : Engine) : List String :=
  e.tables.map Prod.fst

/-- Starts to memoize a predicate of the active table. -/
def enableMemo (e : Engine) (key : String) : Except Refusal Engine :=
  if e.registry.containsKey key then .error (.builtinPredicate key)
  else (e.table.memo.enable key).map e.withMemo

/-- Stops to memoize a predicate and forgets its tuples. -/
def disableMemo (e : Engine) (key : String) : Except Refusal Engine :=
  (e.table.memo.disable key).map e.withMemo

/-- Forgets all tuples of the active table. -/
def clearMemo (e : Engine) : Engine :=
  e.withMemo e.table.memo.clear

/-- Forgets the tuples of a predicate, which stays memoized. -/
def clearMemoKey (e : Engine) (key : String) : Except Refusal Engine :=
  (e.table.memo.clearKey key).map e.withMemo

/-- The memoized keys of the active table in the order of their characters. -/
def memoKeys (e : Engine) : List String :=
  e.table.memo.keys

/-- How many tuples are recorded for a key in the active table. -/
def memoEntries (e : Engine) (key : String) : Nat :=
  e.table.memo.entries key

end Engine

end Horn
