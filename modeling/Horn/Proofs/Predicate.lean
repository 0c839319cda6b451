import Horn.Proofs.Builtin.Registry
import Horn.Proofs.Memo.History
import Horn.Proofs.Program.Plain

/-!
Predicates, which everything tells apart by their keys.

Clauses are indexed, tuples recorded and built-ins listed under a text, the key, and not under a name and an
arity. No two predicates share one, so this makes no difference: an index finds the clauses of one predicate
(`Program.FindsPredicates`), what is done to a memo for one predicate leaves the others alone
(`Memo.agreeAt_of_isElsewhere`), and a built-in is known by its key. The main statement is
`predicateKey_identifies`.
-/

set_option autoImplicit false
set_option relaxedAutoImplicit false

namespace Horn

open Builtin (Registry)

/-! ### Clauses of a predicate -/

namespace Program

variable {p : Program}

/-- What the index of a program finds under the key of a predicate are the clauses whose head has its name
and its arity, in order. -/
structure FindsPredicates (p : Program) : Prop where
  candidates_eq : ∀ name arity, p.candidates (predicateKey name arity) =
    p.clauses.toList.filter fun c => c.head.functor = name ∧ c.head.arity = arity
  defines_iff : ∀ name arity, p.defines (predicateKey name arity) = true ↔
    ∃ c ∈ p.clauses.toList, c.head.functor = name ∧ c.head.arity = arity

theorem IsIndexed.findsPredicates (h : p.IsIndexed) : p.FindsPredicates := by
  have hkey (name : String) (arity : Nat) (c : Clause) :
      decide (c.key = predicateKey name arity) =
        decide (c.head.functor = name ∧ c.head.arity = arity) :=
    decide_eq_decide.2 Fact.key_eq_iff
  have hrefines := h.refines
  refine ⟨fun name arity => ?_, fun name arity => ?_⟩
  · rw [hrefines.candidates_eq]
    simp only [hkey]
  · rw [hrefines.defines_iff]
    simp [hkey]

end Program

/-! ### Tuples of a predicate -/

namespace Memo

variable {m n : Memo} {key other name : String} {arity : Nat}

/-- Two memos cannot be told apart under a key: both or neither memoize it, and they have the same tuples
for it. -/
structure AgreeAt (key : String) (m n : Memo) : Prop where
  enabled : m.isEnabled key = n.isEnabled key
  trie : m.trie? key = n.trie? key

namespace AgreeAt

theorem lookup (h : AgreeAt key m n) (args : List Atom) : m.lookup key args = n.lookup key args := by
  rw [Memo.lookup, Memo.lookup, h.trie]

theorem entries (h : AgreeAt key m n) : m.entries key = n.entries key := by
  rw [Memo.entries, Memo.entries, h.trie]

end AgreeAt

/-- The key under which an operation is done; all tuples are dropped under no key. -/
def Operation.key? : Operation → Option String
  | .enable key | .disable key | .clearKey key | .record key _ => some key
  | .clear => none

/-- An operation is done under the key of a predicate, which is not this one. -/
def Operation.IsElsewhere (name : String) (arity : Nat) (op : Operation) : Prop :=
  ∃ other otherArity, op.key? = some (predicateKey other otherArity) ∧
    ¬ (other = name ∧ otherArity = arity)

private theorem agreeAt_forget (m : Memo) (apart : key ≠ other) : AgreeAt key (m.forget other) m :=
  ⟨rfl, by rw [trie?_forget, if_neg apart]⟩

/-- An operation under one key changes nothing under another. -/
private theorem agreeAt_perform {op : Operation} (under : op.key? = some other) (apart : key ≠ other)
    (m : Memo) : AgreeAt key (m.perform op) m := by
  cases op with
  | enable _ =>
    cases under
    rw [perform, enable]
    split
    · split
      · exact ⟨rfl, rfl⟩
      · exact ⟨by simp [orSame, isEnabled, apart], rfl⟩
    · exact ⟨rfl, rfl⟩
  | disable _ =>
    cases under
    rw [perform, disable]
    split
    · exact ⟨by simp [orSame, isEnabled, apart], (agreeAt_forget m apart).trie⟩
    · exact ⟨rfl, rfl⟩
  | clear => cases under
  | clearKey _ =>
    cases under
    rw [perform, clearKey]
    split
    · exact agreeAt_forget m apart
    · exact ⟨rfl, rfl⟩
  | record _ values =>
    cases under
    exact ⟨rfl, by rw [perform, trie?_record, if_neg apart]⟩

/-- What an operation does under its own key depends on nothing else in the memo. -/
private theorem AgreeAt.perform_self (h : AgreeAt key m n) {op : Operation} (under : op.key? = some key) :
    AgreeAt key (m.perform op) (n.perform op) := by
  have hforget : AgreeAt key (m.forget key) (n.forget key) :=
    ⟨h.enabled, by rw [trie?_forget, trie?_forget, if_pos rfl, if_pos rfl]⟩
  cases op with
  | enable _ =>
    cases under
    rw [perform, perform, enable, enable, h.enabled]
    split
    · split
      · exact h
      · exact ⟨by simp [orSame, isEnabled], h.trie⟩
    · exact h
  | disable _ =>
    cases under
    rw [perform, perform, disable, disable, h.enabled]
    split
    · exact ⟨by simp [orSame, isEnabled], hforget.trie⟩
    · exact h
  | clear => cases under
  | clearKey _ =>
    cases under
    rw [perform, perform, clearKey, clearKey, h.enabled]
    split
    · exact hforget
    · exact h
  | record _ values =>
    cases under
    exact ⟨h.enabled, by rw [perform, perform, trie?_record, trie?_record, h.trie]⟩

/-- Memos that agree under a key do so after every operation. -/
theorem AgreeAt.perform (h : AgreeAt key m n) (op : Operation) :
    AgreeAt key (m.perform op) (n.perform op) := by
  cases hkey : op.key? with
  | none =>
    cases op with
    | clear => exact ⟨h.enabled, rfl⟩
    | _ => cases hkey
  | some other =>
    by_cases hsame : key = other
    · exact h.perform_self (hsame ▸ hkey)
    · -- Under another key both memos stay what they were at this one.
      have hleft := agreeAt_perform hkey hsame m
      have hright := agreeAt_perform hkey hsame n
      exact ⟨hleft.enabled.trans (h.enabled.trans hright.enabled.symm),
        hleft.trie.trans (h.trie.trans hright.trie.symm)⟩

theorem AgreeAt.foldl (h : AgreeAt key m n) (history : List Operation) :
    AgreeAt key (history.foldl Memo.perform m) (history.foldl Memo.perform n) := by
  induction history generalizing m n with
  | nil => exact h
  | cons op history ih => exact ih (h.perform op)

/-- An operation on another predicate can be left out of a history, wherever it stands. -/
theorem agreeAt_of_isElsewhere {op : Operation} (elsewhere : op.IsElsewhere name arity)
    (before behind : List Operation) :
    AgreeAt (predicateKey name arity) (after (before ++ op :: behind)) (after (before ++ behind)) := by
  obtain ⟨other, otherArity, hkey, hother⟩ := elsewhere
  have hapart : predicateKey name arity ≠ predicateKey other otherArity := fun hsame =>
    hother (predicateKey_inj hsame.symm)
  rw [after, after, List.foldl_append, List.foldl_append, List.foldl_cons]
  exact (agreeAt_perform hkey hapart (before.foldl Memo.perform ∅)).foldl behind

end Memo

/-! ### Predicates and their keys -/

/-- A key belongs to one predicate. The registry knows its built-ins by their keys as well as by names and
arities, if these or its bound have 64 bits, and it lists the keys of all of them without repetition. Whatever
was done to a program, its index finds the clauses of each predicate and no others; and what is done to a memo
for one predicate is not seen at any other. -/
theorem predicateKey_identifies (r : Registry) :
    (∀ name other arity otherArity, predicateKey name arity = predicateKey other otherArity →
        name = other ∧ arity = otherArity) ∧
      ((∀ name arity, arity < wordBound ∨ r.bound < wordBound →
          r.containsKey (predicateKey name arity) = r.contains name arity) ∧
        r.keys.Nodup ∧
        ∀ key, key ∈ r.keys ↔
          ∃ name arity, r.contains name arity = true ∧ predicateKey name arity = key) ∧
      (∀ changes, (Program.run Program.change ∅ changes).1.FindsPredicates) ∧
      ∀ name arity (op : Memo.Operation), op.IsElsewhere name arity → ∀ before behind,
        Memo.AgreeAt (predicateKey name arity) (Memo.after (before ++ op :: behind))
          (Memo.after (before ++ behind)) := by
  refine ⟨fun _ _ _ _ => predicateKey_inj, ⟨?_, r.nodup_keys, fun _ => Registry.mem_keys_iff⟩, ?_, ?_⟩
  · intro name arity fits
    exact Registry.containsKey_eq_contains fits name
  · intro changes
    exact (Program.isIndexed_empty.run changes).findsPredicates
  · intro name arity op elsewhere before behind
    exact Memo.agreeAt_of_isElsewhere elsewhere before behind

/-- A predicate `p/1` with two arguments has the key `p/1/2`, and `p` with one argument has the key `p/1`.
Clauses and tuples of the one are not taken for those of the other, and `p/add` is not taken for `add`. -/
theorem predicateKey_identifies_slashed :
    let r : Registry := ⟨20⟩
    let slashed : Fact := .ofLiterals "p/1" [.integer 1, .integer 2]
    let plain : Fact := .ofLiterals "p" [.integer 3]
    let asserted := (Program.run Program.change ∅ [.assert slashed [], .assert plain []]).1
    let history : List Memo.Operation := [.enable "p/1", .record "p/1" [.integer 3]]
    let longer := history ++ [.record "p/1/2" [.integer 1, .integer 2]]
    r.bound < wordBound ∧ r.containsKey "add/20" = true ∧ r.containsKey "p/add/3" = false ∧
      "add/20" ∈ r.keys ∧ "add/21" ∉ r.keys ∧ asserted.candidates "p/1" = [.once plain []] ∧
      (∀ args, (Memo.after longer).lookup "p/1" args = (Memo.after history).lookup "p/1" args) ∧
      (Memo.after longer).entries "p/1" = (Memo.after history).entries "p/1" := by
  intro r slashed plain asserted history longer
  have hfits : r.bound < wordBound := by decide
  have hkeys : predicateKey "add" 20 = "add/20" ∧ predicateKey "add" 21 = "add/21" ∧
      predicateKey "p/add" 3 = "p/add/3" ∧ predicateKey "p" 1 = "p/1" ∧
      predicateKey "p/1" 2 = "p/1/2" := by
    simp only [← ArityForm.key_plain]
    decide
  obtain ⟨hadd, hbeyond, hslashed, hp, hother⟩ := hkeys
  obtain ⟨hinj, ⟨hknown, -, hlisted⟩, hfinds, hapart⟩ := predicateKey_identifies r
  have hagree : Memo.AgreeAt "p/1" (Memo.after longer) (Memo.after history) := by
    have helsewhere : (Memo.Operation.record "p/1/2" [.integer 1, .integer 2]).IsElsewhere "p" 1 :=
      ⟨"p/1", 2, congrArg some hother.symm, by decide⟩
    have := hapart "p" 1 _ helsewhere history []
    rwa [hp, List.append_nil] at this
  refine ⟨hfits, ?_, ?_, ?_, ?_, ?_, hagree.lookup, hagree.entries⟩
  · rw [← hadd, hknown _ _ (.inr hfits)]
    decide
  · rw [← hslashed, hknown _ _ (.inr hfits)]
    decide
  · exact (hlisted _).2 ⟨"add", 20, by decide, hadd⟩
  · intro hmem
    obtain ⟨name, arity, hcontains, hkey⟩ := (hlisted _).1 hmem
    obtain ⟨rfl, rfl⟩ := hinj _ _ _ _ (hkey.trans hbeyond.symm)
    exact absurd hcontains (by decide)
  · have hclauses : asserted.clauses.toList = [.once slashed [], .once plain []] := by
      with_unfolding_all rfl
    rw [← hp, (hfinds [.assert slashed [], .assert plain []]).candidates_eq, hclauses]
    rfl

end Horn
