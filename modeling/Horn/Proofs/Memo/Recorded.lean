import Horn.Memo.Basic
import Horn.Proofs.Derivation
import Horn.Proofs.Fact.Key

/-!
What the memo holds: which tuples a look-up can return, and what recording one more tuple changes.

`Memo.Holds` says of a memo that all tuples recorded for a key belong to the predicate with that
key, in a sense given by a predicate on tuples; as everywhere, equal tuples are not told apart.
Recording a tuple that belongs keeps it, and what a look-up returns belongs.
-/

set_option autoImplicit false
set_option relaxedAutoImplicit false

namespace Horn

namespace Memo

namespace Trie

private theorem contains_of_findFrom? {t : Trie} {args : List Atom} {path values : List Literal}
    (h : t.findFrom? path args = some values) :
    t.contains values = true ∧ values.length = path.length + args.length ∧
      path.reverse <+: values := by
  induction args generalizing path with
  | nil =>
    rw [findFrom?] at h
    obtain ⟨hmem, hpath⟩ := Option.ite_none_right_eq_some.1 h
    obtain rfl : path.reverse = values := Option.some.inj hpath
    simpa [contains] using hmem
  | cons arg args ih =>
    have hnext : ∃ value, t.findFrom? (value :: path) args = some values := by
      cases arg with
      | lit value => exact ⟨value, by simpa only [findFrom?] using h⟩
      | var v =>
        rw [findFrom?] at h
        obtain ⟨value, -, hvalue⟩ := Array.exists_of_findSome?_eq_some h
        exact ⟨value, hvalue⟩
    obtain ⟨value, hvalue⟩ := hnext
    obtain ⟨hmem, hlen, rest, hrest⟩ := ih hvalue
    refine ⟨hmem, by simp only [List.length_cons] at hlen ⊢; omega, value :: rest, ?_⟩
    rw [← hrest, List.reverse_cons, List.append_assoc, List.singleton_append]

/-- A look-up returns a recorded tuple with as many values as there are arguments. -/
theorem contains_of_find? {t : Trie} {args : List Atom} {values : List Literal}
    (h : t.find? args = some values) : t.contains values = true ∧ values.length = args.length := by
  obtain ⟨hmem, hlen, -⟩ := contains_of_findFrom? h
  exact ⟨hmem, by simpa using hlen⟩

/-- A look-up whose arguments begin with literals returns a tuple that begins with them. -/
theorem prefix_of_find? {t : Trie} {inputs values : List Literal} {args : List Atom}
    (h : t.find? (inputs.map .lit ++ args) = some values) : inputs <+: values := by
  have hskip : ∀ path, t.findFrom? path (inputs.map .lit ++ args) =
      t.findFrom? (inputs.reverse ++ path) args := by
    clear h
    induction inputs with
    | nil => exact fun _ => rfl
    | cons input inputs ih => simp [findFrom?, ih]
  rw [find?, hskip, List.append_nil] at h
  simpa using (contains_of_findFrom? h).2.2

private theorem findFrom?_map_lit (t : Trie) (path values : List Literal) :
    t.findFrom? path (values.map .lit) =
      if t.tuples.contains (values.reverse ++ path) then some (path.reverse ++ values) else none := by
  induction values generalizing path with
  | nil => simp [findFrom?]
  | cons value values ih => simp [findFrom?, ih]

/-- A look-up without variables finds the tuple itself if it is recorded. -/
theorem find?_map_lit (t : Trie) (values : List Literal) :
    t.find? (values.map .lit) = if t.contains values then some values else none := by
  simp [find?, findFrom?_map_lit, contains]

end Trie

theorem beq_of_reverse_beq {us values : List Literal}
    (h : (us.reverse == values.reverse) = true) : (us == values) = true := by
  have hlen : us.length = values.length := by simpa using List.length_eq_of_beq h
  simp only [List.beq_eq_decide, List.length_reverse, hlen, dite_true, decide_eq_true_eq,
    List.getElem_reverse] at h ⊢
  intro i hi
  have hplace := h (values.length - 1 - i) (by omega)
  simpa [show values.length - 1 - (values.length - 1 - i) = i by omega] using hplace

theorem lookup_change (key : String) (f : Trie → Trie) (tries : List (String × Trie))
    (other : String) :
    (change key f tries).lookup other =
      if other = key then some (f ((tries.lookup other).getD .empty)) else tries.lookup other := by
  induction tries with
  | nil =>
    by_cases h : other = key
    · simp [change, h]
    · simp [change, List.lookup_cons, beq_eq_false_iff_ne.2 h, h]
  | cons entry rest ih =>
    obtain ⟨name, trie⟩ := entry
    rw [change]
    by_cases hname : name = key
    · subst hname
      by_cases h : other = name
      · simp [h]
      · simp [List.lookup_cons, beq_eq_false_iff_ne.2 h, h]
    · rw [if_neg hname]
      by_cases h : other = name
      · have hkey : other ≠ key := fun hk => hname (h.symm.trans hk)
        simp [h, hname]
      · simpa [List.lookup_cons, beq_eq_false_iff_ne.2 h] using ih

theorem trie?_record (m : Memo) (key : String) (values : List Literal) (other : String) :
    (m.record key values).trie? other =
      if other = key then some (((m.trie? other).getD .empty).insert values)
      else m.trie? other :=
  lookup_change key _ m.tries other

/-- A tuple that was just recorded is found. -/
theorem lookup_record_self (m : Memo) (key : String) (values : List Literal) :
    (m.record key values).lookup key (values.map .lit) = some values := by
  simp [lookup, trie?_record, Trie.find?_map_lit, Trie.contains_insert]

/-- The tuples of one key are forgotten, the others stay. -/
theorem trie?_forget (m : Memo) (key other : String) :
    (m.forget key).trie? other = if other = key then none else m.trie? other := by
  change (m.tries.filter fun entry => entry.1 ≠ key).lookup other = ite _ _ (m.tries.lookup other)
  induction m.tries with
  | nil => simp
  | cons entry rest ih =>
    obtain ⟨name, trie⟩ := entry
    by_cases hname : name = key
    · rw [List.filter_cons_of_neg (by simpa using hname), ih]
      by_cases hother : other = key
      · simp [hother]
      · have hne : (other == name) = false := beq_eq_false_iff_ne.2 fun h => hother (h.trans hname)
        simp [hother, List.lookup_cons, hne]
    · rw [List.filter_cons_of_pos (by simpa using hname), List.lookup_cons, List.lookup_cons]
      cases hother : other == name with
      | true =>
        have hne : other ≠ key := fun h => hname ((eq_of_beq hother).symm.trans h)
        simp [hne]
      | false => simpa using ih

@[simp] theorem isEnabled_record (m : Memo) (key : String) (values : List Literal)
    (other : String) : (m.record key values).isEnabled other = m.isEnabled other := rfl

/-- Every tuple recorded for a key equals one that belongs to the predicate with that key. -/
def Holds (m : Memo) (Belongs : String → List Literal → Prop) : Prop :=
  ∀ key trie values, m.trie? key = some trie → trie.contains values = true →
    ∃ functor us, predicateKey functor us.length = key ∧ (values == us) = true ∧
      Belongs functor us

variable {m : Memo} {Belongs : String → List Literal → Prop}

/-- A memo without tuples holds nothing that would not belong. -/
theorem holds_of_tries_eq_nil (h : m.tries = []) : m.Holds Belongs := by
  intro key trie values htrie
  rw [trie?, h] at htrie
  exact absurd htrie (by simp)

theorem Holds.mono {Other : String → List Literal → Prop} (h : m.Holds Belongs)
    (sub : ∀ functor us, Belongs functor us → Other functor us) : m.Holds Other := by
  intro key trie values htrie hmem
  obtain ⟨functor, us, hkey, hus, hbelongs⟩ := h key trie values htrie hmem
  exact ⟨functor, us, hkey, hus, sub _ _ hbelongs⟩

/-- Recording a tuple that belongs to its predicate. -/
theorem Holds.record {functor : String} {values : List Literal} (h : m.Holds Belongs)
    (new : Belongs functor values) :
    (m.record (predicateKey functor values.length) values).Holds Belongs := by
  intro key trie us htrie hmem
  rw [trie?_record] at htrie
  by_cases hkey : key = predicateKey functor values.length
  · rw [if_pos hkey, Option.some.injEq] at htrie
    subst htrie
    rw [Trie.contains_insert, Bool.or_eq_true] at hmem
    rcases hmem with hnew | hold
    · exact ⟨functor, values, hkey.symm, beq_of_reverse_beq (BEq.symm hnew), new⟩
    · cases hold' : m.trie? key with
      | none => simp [hold'] at hold
      | some old => exact h key old us hold' (by simpa [hold'] using hold)
  · rw [if_neg hkey] at htrie
    exact h key trie us htrie hmem

/-- Tuples are recorded of memoized predicates only. -/
def IsConfined (m : Memo) : Prop :=
  ∀ key trie, m.trie? key = some trie → m.isEnabled key = true

theorem IsConfined.record {key : String} (h : m.IsConfined) (enabled : m.isEnabled key = true)
    (values : List Literal) : (m.record key values).IsConfined := by
  intro other trie htrie
  rw [isEnabled_record]
  rw [trie?_record] at htrie
  by_cases hother : other = key
  · exact hother ▸ enabled
  · exact h other trie (by simpa [hother] using htrie)

/-- Nothing is recorded if no predicate is memoized. -/
theorem IsConfined.holds_of_enabled_eq_nil (h : m.IsConfined) (unmemoized : m.enabled = []) :
    m.Holds Belongs := by
  intro key trie values htrie
  have henabled := h key trie htrie
  rw [isEnabled, unmemoized] at henabled
  simp at henabled

/-- What a look-up for the arguments of a goal returns equals a tuple that belongs to the predicate
of the goal. -/
theorem Holds.belongs_of_lookup (h : m.Holds Belongs) {goal : Fact} {values : List Literal}
    (found : m.lookup goal.key goal.args = some values) :
    ∃ us, (values == us) = true ∧ Belongs goal.functor us ∧ us.length = goal.arity := by
  rw [lookup, Option.bind_eq_some_iff] at found
  obtain ⟨trie, htrie, hfind⟩ := found
  have hmem := (Trie.contains_of_find? hfind).1
  obtain ⟨functor, us, hkey, hus, hbelongs⟩ := h _ _ _ htrie hmem
  obtain ⟨rfl, hlength⟩ := predicateKey_inj hkey
  exact ⟨us, hus, hbelongs, hlength⟩

end Memo

end Horn
