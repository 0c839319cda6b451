import Horn.Proofs.Engine.Restoration

/-!
What the tables of an engine never hold.

The engine refuses clauses with a reserved or built-in head and memoized keys of built-ins, and a search
records tuples of memoized predicates only, each under the key that its functor and its length make. So
every table is protected, whatever was done before: `Engine.tables_protected`. A head is checked by
name and arity and a memoized key by what it spells; `readKey?_predicateKey` says that both agree.
-/

set_option autoImplicit false
set_option relaxedAutoImplicit false

namespace Horn

open Builtin (Registry)

/-- A table has no clause of a reserved or built-in predicate and memoizes none, it has tuples of memoized
predicates only, and each tuple is as long as its key says. -/
structure Table.IsProtected (r : Registry) (t : Table) : Prop where
  heads : ∀ c ∈ t.program.clauses.toList,
    c.head.functor ≠ Engine.queryFunctor ∧ r.contains c.head.functor c.head.arity = false
  memoized : ∀ key, t.memo.isEnabled key = true →
    Memo.isValidKey key = true ∧ r.containsKey key = false
  confined : t.memo.IsConfined
  tuples : ∀ key values, t.memo.Caches key values → ∃ name, readKey? key = some (name, values.length)

namespace Engine

variable {e : Engine} {Allowed : Engine → Operation → Prop}

/-- The predicates that are memoized have valid keys and are no built-ins. -/
theorem ReachableBy.memoized_unprotected (reachable : ReachableBy Allowed e) :
    ∀ entry ∈ e.tables, ∀ key, entry.2.memo.isEnabled key = true →
      Memo.isValidKey key = true ∧ e.registry.containsKey key = false := by
  refine reachable.tables_induction (fun r t => ∀ key, t.memo.isEnabled key = true →
    Memo.isValidKey key = true ∧ r.containsKey key = false) (fun _ _ => (nomatch ·)) ?_
  intro e op table _ _ ih remakes key hkey
  cases remakes with
  | asserted _ => exact ih key hkey
  | retracted _ => exact ih key hkey
  | retractedAt _ => exact ih key hkey
  | forgot _ admitted => exact (admitted key hkey).elim (ih key) id
  | searched _ =>
    rw [Memo.isEnabled, (e.grownFrom_runWithin _ _ _ _ _).enabled] at hkey
    exact ih key hkey

/-- Every tuple is recorded under the key of a predicate with as many arguments. -/
theorem ReachableBy.memos_hold (reachable : ReachableBy Allowed e) :
    ∀ entry ∈ e.tables, entry.2.memo.Holds fun _ _ => True := by
  refine reachable.tables_induction (fun _ t => t.memo.Holds fun _ _ => True)
    (fun _ => Memo.holds_of_tries_eq_nil rfl) ?_
  intro e op table _ _ ih remakes
  cases remakes with
  | asserted _ => exact ih
  | retracted _ => exact ih
  | retractedAt _ => exact ih
  | forgot fewer => exact fun key trie values htrie => ih key trie values (fewer key trie htrie).1
  | searched _ =>
    rw [runWithin_eq, Search.Listing.progress_outcome]
    exact Search.Listing.holds_run ih

/-- A valid key of a predicate spells its name and its arity. -/
private theorem readKey?_of_isValidKey {functor : String} {arity : Nat}
    (valid : Memo.isValidKey (predicateKey functor arity) = true) :
    readKey? (predicateKey functor arity) = some (functor, arity) := by
  rw [Memo.isValidKey] at valid
  rw [readKey?_predicateKey] at valid ⊢
  by_cases hbound : arity < wordBound
  · rw [if_pos hbound]
  · rw [if_neg hbound] at valid
    exact absurd valid Bool.false_ne_true

/-- Every table of a reachable engine is protected. -/
theorem tables_protected (reachable : e.Reachable) :
    ∀ entry ∈ e.tables, entry.2.IsProtected e.registry := by
  intro entry hentry
  have hconfined := reachable.memos_confined entry hentry
  have hmemoized := reachable.memoized_unprotected entry hentry
  refine ⟨reachable.heads_unprotected entry hentry, hmemoized, hconfined, fun key values hcached => ?_⟩
  obtain ⟨trie, htrie, hmem⟩ := hcached
  obtain ⟨functor, us, rfl, hus, -⟩ := reachable.memos_hold entry hentry key trie values htrie hmem
  rw [List.length_eq_of_beq hus]
  exact ⟨functor, readKey?_of_isValidKey (hmemoized _ (hconfined _ trie htrie)).1⟩

/-- A fact `q(2)` in a table of its own, and a fact `p(1)` that a search for it has recorded. -/
def recorded : Engine :=
  after [.selectTable "other", .assert (unaryAt "q" 2) [], .selectTable "0", .assert (unaryAt "p" 1) [],
    .enableMemo "p/1", .search none 9 (unaryAt "p" 1) false default]

private def recordedTables : List (String × Table) :=
  [("0", ⟨.ofClauses #[.once (unaryAt "p" 1) []], (⟨["p/1"], []⟩ : Memo).record "p/1" [.integer 1]⟩),
    ("other", ⟨.ofClauses #[.once (unaryAt "q" 2) []], ∅⟩)]

private theorem tables_recorded : recorded.tables = recordedTables := by
  change ((after [.selectTable "other", .assert (unaryAt "q" 2) [], .selectTable "0",
    .assert (unaryAt "p" 1) [], .enableMemo "p/1"]).searchWithin none 9 (unaryAt "p" 1) false
    default).1.tables = _
  rw [searchWithin_fst (by decide)]
  with_unfolding_all rfl

theorem tables_protected_recorded : recorded.Reachable ∧
    recorded.tables.map Prod.fst = ["0", "other"] ∧
    recorded.table.memo.Caches "p/1" [.integer 1] ∧
      ∀ entry ∈ recorded.tables, entry.2.IsProtected recorded.registry := by
  have hreachable : recorded.Reachable := reachableBy_after fun _ _ _ => trivial
  refine ⟨hreachable, by rw [tables_recorded]; rfl, ?_, tables_protected hreachable⟩
  have htable : recorded.table.memo = (⟨["p/1"], []⟩ : Memo).record "p/1" [.integer 1] := by
    rw [table, tables_recorded]
    with_unfolding_all rfl
  rw [htable]
  refine ⟨Memo.Trie.empty.insert [.integer 1], rfl, ?_⟩
  simp [Memo.Trie.contains_insert]

end Engine

end Horn
