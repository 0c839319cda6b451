import Horn.Proofs.Engine.Refusal
import Horn.Proofs.Fact.Key

/-!
Which keys can be memoized, and whether a goal ever uses them.

A key is read leniently: its arity may stand behind a plus sign and behind zeros. Goals write their keys in
the plain form, and look up and record under these. So each predicate has one key that memoizes it and
others that are accepted and memoize nothing; `enable_accepts_forms` tells them apart.
-/

set_option autoImplicit false
set_option relaxedAutoImplicit false

namespace Horn.Memo

/-- A name and an arity that a key can stand for if it is to be memoized. -/
structure IsMemoizable (name : String) (arity : Nat) : Prop where
  named : name ≠ ""
  undivided : '/' ∉ name.toList
  positive : 1 ≤ arity
  fits : arity < wordBound

/-- Goals of a predicate look up and record under a key. -/
structure Serves (key name : String) (arity : Nat) : Prop where
  lookup : ∀ (l : Search.Ledger) (goal : Fact), goal.functor = name → goal.arity = arity →
    l.memo.isEnabled key = true → Search.cachedTuple? l goal = l.memo.lookup key goal.args
  record : ∀ (m : Memo) (goal : Fact) (values : List Literal), goal.functor = name →
    goal.arity = arity → goal.literals? = some values →
      Search.Ledger.recordFact m goal = m.record key values

variable {m : Memo} {key name : String} {arity : Nat}

/-- A key is well-formed if it is that of a predicate, in whatever form. -/
theorem isWellFormed_iff : IsWellFormed key ↔
    ∃ name arity, IsMemoizable name arity ∧ ∃ form : ArityForm, key = form.key name arity := by
  constructor
  · rintro ⟨name, arity, hread, hnamed, hundivided, hpositive⟩
    obtain ⟨hfits, hform⟩ := readKey?_eq_some_iff.1 hread
    exact ⟨name, arity, ⟨hnamed, hundivided, hpositive, hfits⟩, hform⟩
  · rintro ⟨name, arity, ⟨hnamed, hundivided, hpositive, hfits⟩, hform⟩
    exact ⟨name, arity, readKey?_eq_some_iff.2 ⟨hfits, hform⟩, hnamed, hundivided, hpositive⟩

/-- A key that is not enabled yet can be enabled if it is well-formed. -/
theorem exists_enable_iff (new : m.isEnabled key = false) :
    (∃ m', m.enable key = .ok m') ↔ IsWellFormed key := by
  rw [← isValidKey_iff, enable, new]
  cases isValidKey key <;> simp

theorem serves_predicateKey (name : String) (arity : Nat) : Serves (predicateKey name arity) name arity where
  lookup := by
    rintro l goal rfl rfl enabled
    rw [Search.cachedTuple?, Fact.key, if_pos enabled]
  record := by
    rintro m goal values rfl rfl hvalues
    rw [Search.Ledger.recordFact, hvalues, Fact.key]

/-- No goal has a key in which the arity is not written in the plain form. -/
theorem key_ne_of_form {form : ArityForm} (other : form ≠ .plain) (name : String) (arity : Nat)
    (goal : Fact) : goal.key ≠ form.key name arity := by
  intro h
  rw [Fact.key, ← ArityForm.key_plain] at h
  exact other (ArityForm.key_inj h).2.2.symm

/-- A key that is not enabled yet is accepted exactly if it spells, in some form, a name without slashes and
an arity that is not zero. In the plain form it is the key of that predicate, under which its goals look up
and record; in all other forms it is the key of no goal. -/
theorem enable_accepts_forms (m : Memo) (key : String) (new : m.isEnabled key = false) :
    ((∃ m', m.enable key = .ok m') ↔
        ∃ name arity, IsMemoizable name arity ∧ ∃ form : ArityForm, key = form.key name arity) ∧
      ∀ name arity (form : ArityForm), key = form.key name arity →
        (form = .plain → key = predicateKey name arity ∧ Serves key name arity) ∧
          (form ≠ .plain → ∀ goal : Fact, goal.key ≠ key) := by
  refine ⟨(exists_enable_iff new).trans isWellFormed_iff, ?_⟩
  rintro name arity form rfl
  constructor
  · rintro rfl
    rw [ArityForm.key_plain]
    exact ⟨rfl, serves_predicateKey name arity⟩
  · intro hform goal
    exact key_ne_of_form hform name arity goal

/-- `fib/2` and `fib/02` are accepted. Goals of `fib` look up under the one and never under the other. -/
theorem enable_accepts_forms_fib :
    let padded : ArityForm := ⟨false, 1⟩
    ((∅ : Memo).isEnabled "fib/2" = false ∧ (∃ m', (∅ : Memo).enable "fib/2" = .ok m') ∧
        "fib/2" = ArityForm.plain.key "fib" 2 ∧ Serves "fib/2" "fib" 2) ∧
      (∅ : Memo).isEnabled "fib/02" = false ∧ (∃ m', (∅ : Memo).enable "fib/02" = .ok m') ∧
        "fib/02" = padded.key "fib" 2 ∧ ∀ goal : Fact, goal.key ≠ "fib/02" := by
  intro padded
  have hmemoizable : IsMemoizable "fib" 2 := ⟨by decide, by decide, by decide, by decide⟩
  have hplain : "fib/2" = ArityForm.plain.key "fib" 2 := by decide
  have hpadded : "fib/02" = padded.key "fib" 2 := by decide
  obtain ⟨haccepts, hforms⟩ := enable_accepts_forms ∅ "fib/2" rfl
  obtain ⟨haccepts', hforms'⟩ := enable_accepts_forms ∅ "fib/02" rfl
  exact ⟨⟨rfl, haccepts.2 ⟨_, _, hmemoizable, _, hplain⟩, hplain, ((hforms _ _ _ hplain).1 rfl).2⟩,
    rfl, haccepts'.2 ⟨_, _, hmemoizable, _, hpadded⟩, hpadded, (hforms' _ _ _ hpadded).2 (by decide)⟩

/-- Not every key that is accepted is the key of a predicate: `fib/02` is not. -/
theorem not_forall_enabled_predicateKey :
    ¬ ∀ (m : Memo) (key : String), m.isEnabled key = false →
      ((∃ m', m.enable key = .ok m') ↔
        ∃ name arity, IsMemoizable name arity ∧ key = predicateKey name arity) := by
  intro h
  have hpadded : "fib/02" = (⟨false, 1⟩ : ArityForm).key "fib" 2 := by decide
  have haccepted : ∃ m', (∅ : Memo).enable "fib/02" = .ok m' := by
    refine (exists_enable_iff rfl).2 (isWellFormed_iff.2 ⟨"fib", 2, ?_, _, hpadded⟩)
    exact ⟨by decide, by decide, by decide, by decide⟩
  obtain ⟨name, arity, -, hkey⟩ := (h ∅ "fib/02" rfl).1 haccepted
  rw [hpadded, ← ArityForm.key_plain] at hkey
  exact absurd (ArityForm.key_inj hkey).2.2 (by decide)

end Horn.Memo
