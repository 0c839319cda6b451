import Horn.Text.Radix

/-!
What a search counts.
-/

set_option autoImplicit false
set_option relaxedAutoImplicit false

namespace Horn.Search

/-- The counters of a search, and the undefined predicates it met, each once, in order. -/
structure Stats where
  iterations : Nat
  clauseScans : Nat
  clausesTested : Nat
  memoHits : Nat
  builtinCalls : Nat
  prunedDuplicates : Nat
  undefined : List String
  deriving DecidableEq, Repr, Inhabited

namespace Stats

def zero : Stats := ⟨0, 0, 0, 0, 0, 0, []⟩

/-- Notes an undefined predicate unless it is known already. -/
def report (s : Stats) (key : String) : Stats :=
  if key ∈ s.undefined then s else { s with undefined := s.undefined ++ [key] }

/-- The counters with their names; the undefined predicates are left out. -/
def toText (s : Stats) : String :=
  let item (name : String) (count : Nat) : String := name ++ "=" ++ Radix.render 10 count
  " ".intercalate
    [item "iterations" s.iterations, item "clause_scans" s.clauseScans,
      item "clauses_tested" s.clausesTested, item "memo_hits" s.memoHits,
      item "builtin_calls" s.builtinCalls, item "pruned_duplicates" s.prunedDuplicates]

end Stats

end Horn.Search
