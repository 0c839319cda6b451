import Std.Data.HashMap
import Horn.Fact.Basic

/-!
Numbering variable names by first occurrence.

`Numbering` is the list of the names met so far. `Numbering.ofOccurrences` numbers a long sequence
of occurrences with a table instead; `Numbering.toList_ofOccurrences` says that both agree.
-/

set_option autoImplicit false
set_option relaxedAutoImplicit false

namespace Horn

/-- The variable names met so far, each once, in order of first occurrence. -/
abbrev Numbering := List VarName

namespace Numbering

/-- The number of a name; a new name gets the next free number. -/
def number (seen : Numbering) (name : VarName) : Nat :=
  seen.idxOf name

/-- The numbering once a name has been met. -/
def meet (seen : Numbering) (name : VarName) : Numbering :=
  if name ∈ seen then seen else seen ++ [name]

/-- The numbering that meets the names of a list in order. -/
def ofNames (names : List VarName) : Numbering :=
  names.foldl meet []

/-- The distinct variable names of a sequence of facts, in order of first occurrence. -/
def ofFacts (facts : List Fact) : Numbering :=
  ofNames (facts.flatMap Fact.varNames)

theorem mem_meet (seen : Numbering) (name : VarName) : name ∈ seen.meet name := by
  by_cases h : name ∈ seen <;> simp [meet, h]

theorem mem_meet_of_mem {seen : Numbering} {name : VarName} (h : name ∈ seen) (other : VarName) :
    name ∈ seen.meet other := by
  by_cases ho : other ∈ seen <;> simp [meet, ho, h]

theorem number_meet_of_mem {seen : Numbering} {name : VarName} (h : name ∈ seen)
    (other : VarName) : (seen.meet other).number name = seen.number name := by
  by_cases ho : other ∈ seen
  · simp [meet, ho]
  · simp [meet, ho, number, List.idxOf_append, h]

theorem number_meet_self (seen : Numbering) (name : VarName) :
    (seen.meet name).number name = seen.number name := by
  by_cases h : name ∈ seen
  · exact number_meet_of_mem h name
  · rw [meet, if_neg h, number, number, List.idxOf_append, if_neg h, List.idxOf_eq_length h]
    simp

theorem number_foldl_meet {name : VarName} (names : List VarName) {seen : Numbering}
    (h : name ∈ seen) : (names.foldl meet seen).number name = seen.number name := by
  induction names generalizing seen with
  | nil => rfl
  | cons other rest ih =>
    rw [List.foldl_cons, ih (mem_meet_of_mem h other), number_meet_of_mem h other]

/-- A table of the numbers of the names met so far. -/
structure Table where
  numbers : Std.HashMap VarName Nat

namespace Table

def empty : Table := ⟨∅⟩

def number (t : Table) (name : VarName) : Nat :=
  t.numbers.getD name t.numbers.size

def meet (t : Table) (name : VarName) : Table :=
  ⟨t.numbers.insertIfNew name t.numbers.size⟩

/-- The number of a name and the table once it has been met. -/
def visit (t : Table) (name : VarName) : Nat × Table :=
  let size := t.numbers.size
  let (known, numbers) := t.numbers.getThenInsertIfNew? name size
  (known.getD size, ⟨numbers⟩)

theorem visit_eq (t : Table) (name : VarName) : t.visit name = (t.number name, t.meet name) := by
  simp [visit, number, meet, Std.HashMap.getD_eq_getD_getElem?]

/-- A table lists the names of a numbering with their numbers. -/
def Lists (t : Table) (seen : Numbering) : Prop :=
  t.numbers.size = seen.length ∧
    ∀ name, t.numbers[name]? = if name ∈ seen then some (seen.number name) else none

theorem lists_empty : empty.Lists [] := by
  simp [Lists, empty]

theorem Lists.number_eq {t : Table} {seen : Numbering} (h : t.Lists seen) (name : VarName) :
    t.number name = seen.number name := by
  rw [number, Std.HashMap.getD_eq_getD_getElem?, h.2 name, h.1]
  by_cases hm : name ∈ seen
  · simp [hm]
  · rw [if_neg hm, Numbering.number, List.idxOf_eq_length hm]
    rfl

theorem Lists.meet {t : Table} {seen : Numbering} (h : t.Lists seen) (name : VarName) :
    (t.meet name).Lists (seen.meet name) := by
  have hm : name ∈ t.numbers ↔ name ∈ seen := by
    rw [Std.HashMap.mem_iff_isSome_getElem?, h.2 name]
    by_cases hs : name ∈ seen <;> simp [hs]
  constructor
  · by_cases hs : name ∈ seen <;>
      simp [Table.meet, Numbering.meet, Std.HashMap.size_insertIfNew, hm, hs, h.1]
  · intro other
    rw [Table.meet, Std.HashMap.getElem?_insertIfNew, h.2 other]
    by_cases hs : name ∈ seen
    · simp [hm, hs, Numbering.meet]
    · by_cases ho : name = other
      · subst ho
        simp [hm, hs, Numbering.meet, Numbering.number, List.idxOf_append, h.1]
      · by_cases hos : other ∈ seen
        · simp [hm, hs, ho, hos, Numbering.meet, Numbering.number, List.idxOf_append]
        · simp [hm, hs, ho, hos, Numbering.meet, Ne.symm ho]

end Table

/-- The numbers of the occurrences of variables met so far, and the table of their names. -/
structure Count where
  table : Table
  numbers : Array Nat

namespace Count

def empty : Count := ⟨.empty, #[]⟩

/-- Numbers one more occurrence. -/
def visit (c : Count) (name : VarName) : Count :=
  let (number, table) := c.table.visit name
  ⟨table, c.numbers.push number⟩

/-- Numbers the occurrences in a fact. -/
def visitFact (c : Count) (f : Fact) : Count :=
  f.args.foldl
    (fun c arg =>
      match arg with
      | .var v => c.visit v.name
      | .lit _ => c)
    c

theorem visitFact_eq (c : Count) (f : Fact) : c.visitFact f = f.varNames.foldl visit c := by
  rw [visitFact, Fact.varNames, Fact.occurrences, List.foldl_map, List.foldl_filterMap]
  congr 1
  funext c arg
  cases arg <;> rfl

theorem foldl_visitFact (c : Count) (fs : List Fact) :
    fs.foldl visitFact c = (fs.flatMap Fact.varNames).foldl visit c := by
  rw [List.foldl_flatMap]
  congr 1
  funext c f
  exact visitFact_eq c f

theorem toList_numbers_foldl_visit {c : Count} {seen : Numbering} (h : c.table.Lists seen)
    (names : List VarName) :
    (names.foldl visit c).numbers.toList =
      c.numbers.toList ++ names.map (names.foldl meet seen).number := by
  induction names generalizing c seen with
  | nil => simp
  | cons name rest ih =>
    have ht : (c.visit name).table = c.table.meet name := by rw [visit, Table.visit_eq]
    have hn : (c.visit name).numbers = c.numbers.push (c.table.number name) := by
      rw [visit, Table.visit_eq]
    rw [List.foldl_cons, ih (ht ▸ h.meet name), List.foldl_cons, List.map_cons, hn,
      number_foldl_meet rest (mem_meet seen name), number_meet_self, h.number_eq]
    simp

end Count

/-- The number of each occurrence in a sequence of names. -/
def ofOccurrences (names : List VarName) : Array Nat :=
  (names.foldl Count.visit .empty).numbers

/-- Every occurrence of a name has the number of its first occurrence among the distinct names. -/
theorem toList_ofOccurrences (names : List VarName) :
    (ofOccurrences names).toList = names.map (ofNames names).number := by
  rw [ofOccurrences, Count.toList_numbers_foldl_visit Table.lists_empty, ofNames]
  rfl

end Numbering

end Horn
