import Horn.Proofs.Distinct
import Horn.Proofs.Memo.Denotation

/-!
What a memo holds after a history of operations.

An operation is performed on the memo it is applied to, and a refused one leaves it as it is. Beside that
`recorded` keeps the tuples of one key as a plain list, which an operation empties if it drops them.
`denotes_after` says that the trie of the key denotes that list, and so `lookup_finds_first` tells what a
look-up returns from the list alone.
-/

set_option autoImplicit false
set_option relaxedAutoImplicit false

namespace Horn.Memo

/-- What can be done to a memo; to ask it changes nothing. -/
inductive Operation where
  | enable (key : String)
  | disable (key : String)
  | clear
  | clearKey (key : String)
  | record (key : String) (values : List Literal)

/-- The memo that an operation returns, or the one before if the operation is refused. -/
def orSame (m : Memo) : Except Refusal Memo → Memo
  | .ok after => after
  | .error _ => m

/-- The memo after an operation. -/
def perform (m : Memo) : Operation → Memo
  | .enable key => m.orSame (m.enable key)
  | .disable key => m.orSame (m.disable key)
  | .clear => m.clear
  | .clearKey key => m.orSame (m.clearKey key)
  | .record key values => m.record key values

/-- The memo after a history, from an empty one on. -/
def after (history : List Operation) : Memo :=
  history.foldl perform ∅

/-- The tuples recorded for a key after an operation, if these were recorded before. A refused operation
drops nothing. -/
def Operation.keep (key : String) (m : Memo) (tuples : List (List Literal)) :
    Operation → List (List Literal)
  | .enable _ => tuples
  | .disable other | .clearKey other => if other = key ∧ m.isEnabled key then [] else tuples
  | .clear => []
  | .record other values => if other = key then tuples ++ [values] else tuples

/-- The tuples recorded for a key since they were last dropped, in order, after a history that begins with
a memo and with the tuples that it has for the key. -/
def recordedFrom (key : String) (m : Memo) (tuples : List (List Literal)) :
    List Operation → List (List Literal)
  | [] => tuples
  | op :: history => recordedFrom key (m.perform op) (op.keep key m tuples) history

/-- The tuples recorded for a key since they were last dropped, in order. -/
def recorded (key : String) (history : List Operation) : List (List Literal) :=
  recordedFrom key ∅ [] history

/-- The trie of a key, which is empty if there is none. -/
def trieOf (m : Memo) (key : String) : Trie :=
  (m.trie? key).getD .empty

theorem lookup_eq (m : Memo) (key : String) (args : List Atom) :
    m.lookup key args = (m.trieOf key).find? args := by
  rw [lookup, trieOf]
  cases m.trie? key with
  | some trie => rfl
  | none =>
    have hempty : (Trie.empty.find? args).isSome = true ↔ ∃ us ∈ [], Answers args us :=
      Trie.denotes_empty.isSome_find?_iff
    exact Eq.symm (by simpa using hempty)

theorem entries_eq (m : Memo) (key : String) : m.entries key = (m.trieOf key).count := by
  rw [entries, trieOf]
  cases m.trie? key with
  | some trie => rfl
  | none => exact Trie.count_empty.symm

/-! ### What an operation does to the trie of a key -/

theorem trieOf_record (m : Memo) (key : String) (values : List Literal) (other : String) :
    (m.record key values).trieOf other =
      if other = key then (m.trieOf other).insert values else m.trieOf other := by
  rw [trieOf, trie?_record, trieOf]
  split <;> rfl

theorem trieOf_forget (m : Memo) (key other : String) :
    (m.forget key).trieOf other = if other = key then .empty else m.trieOf other := by
  rw [trieOf, trie?_forget, trieOf]
  split <;> rfl

variable {m : Memo} {key : String} {tuples : List (List Literal)}

private theorem denotes_forget (h : (m.trieOf key).Denotes tuples) {other : String}
    (enabled : m.isEnabled other = true) : ((m.forget other).trieOf key).Denotes
      (if other = key ∧ m.isEnabled key then [] else tuples) := by
  rw [trieOf_forget]
  by_cases hkey : key = other
  · subst hkey
    rw [if_pos rfl, if_pos ⟨rfl, enabled⟩]
    exact Trie.denotes_empty
  · rw [if_neg hkey, if_neg fun hdropped => hkey hdropped.1.symm]
    exact h

private theorem denotes_refused (h : (m.trieOf key).Denotes tuples) {other : String}
    (refused : ¬ m.isEnabled other = true) :
    (m.trieOf key).Denotes (if other = key ∧ m.isEnabled key then [] else tuples) := by
  rwa [if_neg]
  rintro ⟨rfl, henabled⟩
  exact refused henabled

/-- An operation keeps of the tuples of a key what it says. -/
theorem denotes_perform (h : (m.trieOf key).Denotes tuples) (op : Operation) :
    ((m.perform op).trieOf key).Denotes (op.keep key m tuples) := by
  cases op with
  | enable other =>
    rw [perform, enable]
    split
    · split <;> exact h
    · exact h
  | disable other =>
    rw [perform, disable, Operation.keep]
    split
    · exact denotes_forget h ‹_›
    · exact denotes_refused h ‹_›
  | clear => exact Trie.denotes_empty
  | clearKey other =>
    rw [perform, clearKey, Operation.keep]
    split
    · exact denotes_forget h ‹_›
    · exact denotes_refused h ‹_›
  | record other values =>
    rw [perform, trieOf_record, Operation.keep]
    by_cases hkey : key = other
    · rw [if_pos hkey, if_pos hkey.symm]
      exact h.insert values
    · rw [if_neg hkey, if_neg (Ne.symm hkey)]
      exact h

private theorem denotes_recordedFrom (h : (m.trieOf key).Denotes tuples) (history : List Operation) :
    ((history.foldl perform m).trieOf key).Denotes (recordedFrom key m tuples history) := by
  induction history generalizing m tuples with
  | nil => exact h
  | cons op history ih => exact ih (denotes_perform h op)

/-- After a history the trie of a key denotes the tuples that were recorded for it. -/
theorem denotes_after (key : String) (history : List Operation) :
    ((after history).trieOf key).Denotes (recorded key history) :=
  denotes_recordedFrom (m := ∅) Trie.denotes_empty history

/-- A look-up finds something if and only if a recorded tuple of the right length has the literals of the
arguments at their places. What it finds is such a tuple, and of these the one whose values were recorded
first, place by place. Equal tuples count once. -/
theorem lookup_finds_first (history : List Operation) (key : String) (args : List Atom) :
    (((after history).lookup key args).isSome = true ↔ ∃ us ∈ recorded key history, Answers args us) ∧
      (∀ values, (after history).lookup key args = some values →
        Answers args values ∧ (∃ us ∈ recorded key history, (us == values) = true) ∧
          ∀ us ∈ recorded key history, Answers args us →
            (values == us) = true ∨ Precedes (recorded key history) values us) ∧
      (∀ us ws, Precedes (recorded key history) us ws → ¬ Precedes (recorded key history) ws us) ∧
      (after history).entries key = (distinct (recorded key history)).length := by
  have hdenotes := denotes_after key history
  rw [lookup_eq, entries_eq]
  exact ⟨hdenotes.isSome_find?_iff, fun values hvalues => hdenotes.find?_eq_some hvalues,
    fun _ _ => Precedes.asymm, hdenotes.size⟩

private def row (a b : Int64) : List Literal :=
  [.integer a, .integer b]

/-- After `(1, 2)` was dropped and `(3, 7)`, `(1, 5)` and `(3, 4)` were recorded, there are three tuples, and
two unbound arguments are answered by `(3, 7)`. -/
theorem lookup_finds_first_again :
    let history : List Operation := [.enable "pair/2", .record "pair/2" (row 1 2), .clearKey "pair/2",
      .record "pair/2" (row 3 7), .record "pair/2" (row 1 5), .record "pair/2" (row 3 4)]
    (∃ values, (after history).lookup "pair/2" [.var ⟨.named "A", none⟩, .var ⟨.named "B", none⟩] =
        some values ∧ (row 3 7 == values) = true) ∧
      (after history).entries "pair/2" = 3 := by
  intro history
  have hrecorded : recorded "pair/2" history = [row 3 7, row 1 5, row 3 4] := by
    with_unfolding_all rfl
  obtain ⟨hfound, hfirst, hasymm, hentries⟩ :=
    lookup_finds_first history "pair/2" [.var ⟨.named "A", none⟩, .var ⟨.named "B", none⟩]
  rw [hrecorded] at hfound hfirst hasymm hentries
  have hanswers : Answers [.var ⟨.named "A", none⟩, .var ⟨.named "B", none⟩] (row 3 7) :=
    .cons rfl (.cons rfl .nil)
  obtain ⟨values, hvalues⟩ := Option.isSome_iff_exists.1 (hfound.2 ⟨row 3 7, by simp, hanswers⟩)
  refine ⟨⟨values, hvalues, ?_⟩, hentries.trans ?_⟩
  · obtain ⟨-, ⟨us, mem, equal⟩, hleast⟩ := hfirst values hvalues
    rcases hleast (row 3 7) (by simp) hanswers with hsame | hbefore
    · exact BEq.symm hsame
    · -- The tuple cannot be one of the others, which `(3, 7)` precedes.
      have hlater : Precedes [row 3 7, row 1 5, row 3 4] (row 3 7) (row 1 5) :=
        ⟨[], .integer 3, .integer 1, rfl, rfl, by decide +kernel⟩
      have hlast : Precedes [row 3 7, row 1 5, row 3 4] (row 3 7) (row 3 4) :=
        ⟨[.integer 3], .integer 7, .integer 4, rfl, rfl, by decide +kernel⟩
      simp only [List.mem_cons, List.not_mem_nil, or_false] at mem
      rcases mem with rfl | rfl | rfl
      · exact equal
      · exact absurd hbefore (hasymm _ _ (hlater.congr_right equal))
      · exact absurd hbefore (hasymm _ _ (hlast.congr_right equal))
  · rw [distinct_eq_eraseDups]
    decide +kernel

end Horn.Memo
