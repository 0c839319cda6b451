import Mathlib.Data.List.Nodup
import Horn.Builtin.Registry
import Horn.Proofs.Fact.Key

/-!
The predicates that the registry lists, and their keys.

No two built-ins share a name, so a name and an arity are a built-in if some entry of the catalogue has
both: `Registry.contains_iff`. The keys that are listed are those of these predicates, each of them once
(`Registry.mem_keys_iff`, `Registry.nodup_keys`), and a key is recognized by the name and the arity that it
was made from: `Registry.containsKey_predicateKey`.
-/

set_option autoImplicit false
set_option relaxedAutoImplicit false

namespace Horn.Builtin

theorem nodup_names : (catalogue.map Entry.name).Nodup := by
  decide +kernel

/-- Only a variadic built-in reaches up to the bound, and further than without it. -/
theorem Arities.high_le (arities : Arities) (bound : Nat) :
    arities.high bound ≤ Nat.max bound (arities.high 0) := by
  cases arities with
  | fixed arity => exact Nat.le_max_right _ _
  | range low high => exact Nat.le_max_right _ _
  | variadic low =>
    rw [high, high]
    exact Nat.max_le.2 ⟨Nat.le_max_left _ _, Nat.le_trans (Nat.le_max_right 0 low) (Nat.le_max_right _ _)⟩

namespace Registry

variable {r : Registry} {entry : Entry} {name key : String} {arity : Nat}

theorem hasArity_iff :
    r.hasArity entry arity = true ↔ entry.arities.low ≤ arity ∧ arity ≤ entry.arities.high r.bound := by
  rw [hasArity, Bool.and_eq_true, decide_eq_true_eq, decide_eq_true_eq]

private theorem name_of_find? (h : r.find? name = some entry) : entry.name = name := by
  rw [find?] at h
  simpa using List.find?_some h

/-- A built-in is found by its name, which no other one has. -/
theorem find?_eq_some_iff : r.find? name = some entry ↔ entry ∈ catalogue ∧ entry.name = name := by
  constructor
  · intro h
    exact ⟨List.mem_of_find?_eq_some h, name_of_find? h⟩
  · rintro ⟨hmem, rfl⟩
    obtain ⟨found, hfound⟩ : ∃ found, r.find? entry.name = some found :=
      Option.isSome_iff_exists.1 (List.find?_isSome.2 ⟨entry, hmem, decide_eq_true rfl⟩)
    have hsame : found = entry :=
      List.inj_on_of_nodup_map nodup_names (List.mem_of_find?_eq_some hfound) hmem (name_of_find? hfound)
    rw [hfound, hsame]

theorem contains_iff : r.contains name arity = true ↔
    ∃ entry ∈ catalogue, entry.name = name ∧ r.hasArity entry arity = true := by
  rw [contains, Option.any_eq_true]
  refine exists_congr fun entry => ?_
  rw [find?_eq_some_iff, and_assoc]

/-! ### Keys that are listed -/

private theorem mem_entryKeys_iff : key ∈ r.entryKeys entry ↔
    ∃ arity, r.hasArity entry arity = true ∧ predicateKey entry.name arity = key := by
  rw [entryKeys, List.mem_map]
  refine exists_congr fun arity => and_congr_left fun _ => ?_
  rw [List.mem_range'_1, hasArity_iff]
  omega

/-- The keys that are listed are those of the predicates that are built-ins. -/
theorem mem_keys_iff :
    key ∈ r.keys ↔ ∃ name arity, r.contains name arity = true ∧ predicateKey name arity = key := by
  rw [keys, List.mem_flatMap]
  constructor
  · rintro ⟨entry, hentry, hkey⟩
    obtain ⟨arity, harity, rfl⟩ := mem_entryKeys_iff.1 hkey
    exact ⟨entry.name, arity, contains_iff.2 ⟨entry, hentry, rfl, harity⟩, rfl⟩
  · rintro ⟨name, arity, hcontains, rfl⟩
    obtain ⟨entry, hentry, rfl, harity⟩ := contains_iff.1 hcontains
    exact ⟨entry, hentry, mem_entryKeys_iff.2 ⟨arity, harity, rfl⟩⟩

/-- No key is listed twice: keys of one built-in differ in their arities, and those of two in their
names. -/
theorem nodup_keys (r : Registry) : r.keys.Nodup := by
  refine List.nodup_flatMap.2 ⟨fun entry _ => ?_, ?_⟩
  · exact (List.nodup_range' 1).map fun _ _ hkey => (predicateKey_inj hkey).2
  · refine (List.pairwise_map.1 nodup_names).imp fun {entry other} hnames => ?_
    refine List.disjoint_left.2 fun key hkey hother => hnames ?_
    obtain ⟨arity, -, rfl⟩ := mem_entryKeys_iff.1 hkey
    obtain ⟨otherArity, -, hsame⟩ := mem_entryKeys_iff.1 hother
    exact (predicateKey_inj hsame).1.symm

/-! ### Keys that are recognized -/

/-- The key of a predicate is recognized as that of a built-in if it is one, and its arity fits. -/
theorem containsKey_predicateKey (r : Registry) (name : String) (arity : Nat) :
    r.containsKey (predicateKey name arity) = (decide (arity < wordBound) && r.contains name arity) := by
  rw [containsKey, readKey?_predicateKey]
  by_cases hfits : arity < wordBound
  · rw [if_pos hfits, decide_eq_true hfits, Bool.true_and]
    rfl
  · rw [if_neg hfits, decide_eq_false hfits, Bool.false_and]
    rfl

/-- The arities of all built-ins fit if the bound of the variadic ones does. -/
theorem lt_wordBound_of_contains (fits : r.bound < wordBound) (h : r.contains name arity = true) :
    arity < wordBound := by
  obtain ⟨entry, hentry, -, harity⟩ := contains_iff.1 h
  have hfixed : ∀ entry ∈ catalogue, entry.arities.high 0 < wordBound := by decide +kernel
  calc arity
      ≤ entry.arities.high r.bound := (hasArity_iff.1 harity).2
    _ ≤ Nat.max r.bound (entry.arities.high 0) := entry.arities.high_le r.bound
    _ < wordBound := Nat.max_lt.2 ⟨fits, hfixed entry hentry⟩

/-- A key is recognized exactly if the predicate that it was made from is a built-in, where its arity or the
bound fits. -/
theorem containsKey_eq_contains (fits : arity < wordBound ∨ r.bound < wordBound) (name : String) :
    r.containsKey (predicateKey name arity) = r.contains name arity := by
  rw [containsKey_predicateKey]
  cases hcontains : r.contains name arity with
  | false => exact Bool.and_false _
  | true =>
    have harity : arity < wordBound := fits.elim id fun hbound => lt_wordBound_of_contains hbound hcontains
    rw [decide_eq_true harity, Bool.true_and]

end Registry

end Horn.Builtin
