import Horn.Proofs.Memo.Recorded

/-!
Memos that have grown.

A memo has grown out of another if the same predicates are memoized and everything cached before is
cached still. Recording a tuple is growth, whatever the tuple and its key.
-/

set_option autoImplicit false
set_option relaxedAutoImplicit false

namespace Horn.Memo

variable {m n o : Memo}

/-- A tuple, or one that equals it, is recorded for a key. -/
def Caches (m : Memo) (key : String) (values : List Literal) : Prop :=
  ∃ trie, m.trie? key = some trie ∧ trie.contains values = true

/-- The same predicates are memoized, and no tuple is lost. -/
structure GrownFrom (n m : Memo) : Prop where
  enabled : n.enabled = m.enabled
  caches : ∀ key values, m.Caches key values → n.Caches key values

theorem GrownFrom.refl (m : Memo) : m.GrownFrom m :=
  ⟨rfl, fun _ _ => id⟩

theorem GrownFrom.trans (h : o.GrownFrom n) (k : n.GrownFrom m) : o.GrownFrom m :=
  ⟨h.enabled.trans k.enabled, fun key values hm => h.caches key values (k.caches key values hm)⟩

theorem grownFrom_record (m : Memo) (key : String) (values : List Literal) :
    (m.record key values).GrownFrom m := by
  refine ⟨rfl, fun other us hcached => ?_⟩
  obtain ⟨trie, htrie, hmem⟩ := hcached
  by_cases hkey : other = key
  · refine ⟨trie.insert values, ?_, ?_⟩
    · rw [trie?_record, if_pos hkey, htrie]
      rfl
    · rw [Trie.contains_insert, hmem, Bool.or_true]
  · refine ⟨trie, ?_, hmem⟩
    rw [trie?_record, if_neg hkey, htrie]

/-- A memo that is confined caches nothing for a predicate that is not memoized. -/
theorem IsConfined.isEnabled_of_caches (h : m.IsConfined) {key : String} {values : List Literal}
    (cached : m.Caches key values) : m.isEnabled key = true := by
  obtain ⟨trie, htrie, -⟩ := cached
  exact h key trie htrie

end Horn.Memo
