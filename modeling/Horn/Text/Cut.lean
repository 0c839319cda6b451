/-!
Cutting a text at the first occurrence of a pattern.

`cutOnto?` compares the pattern at every place. `cut?` compares a hash of as many characters as the
pattern has, carried from place to place, and the characters themselves only where the hashes agree;
`cut?_eq` says that this makes no difference.
-/

set_option autoImplicit false
set_option relaxedAutoImplicit false

namespace Horn.Text

/-- What stands before the first occurrence of a pattern and what behind it; `done` holds what was
passed over already, the last character first. -/
def cutOnto? (pattern done : List Char) : List Char → Option (List Char × List Char)
  | [] => if pattern.isEmpty then some (done.reverse, []) else none
  | c :: rest =>
    if pattern.isPrefixOf (c :: rest) then
      some (done.reverse, (c :: rest).drop pattern.length)
    else cutOnto? pattern (c :: done) rest

/-- The base of the hash of a stretch of text. -/
def hashBase : UInt64 := 0x100000001b3

/-- A stretch of text as a number in the base, modulo the size of a word. -/
def stretchHash (start : UInt64) (text : List Char) : UInt64 :=
  text.foldl (fun hash c => hash * hashBase + c.val.toUInt64) start

/-- The weight that a character in front of a stretch has. -/
def weight (text : List Char) : UInt64 :=
  text.foldl (fun weight _ => weight * hashBase) 1

/-- A pattern with its hash and its weight. -/
structure Pattern where
  text : List Char
  hash : UInt64
  weight : UInt64

def Pattern.ofText (text : List Char) : Pattern :=
  ⟨text, stretchHash 0 text, Text.weight text⟩

/-- Looks for a pattern; `hash` belongs to the stretch at the front, and `ahead` is the text behind
it. -/
def scanOnto? (pattern : Pattern) (hash : UInt64) (done text : List Char) :
    (ahead : List Char) → Option (List Char × List Char)
  | [] =>
    if hash == pattern.hash && pattern.text.isPrefixOf text then
      some (done.reverse, text.drop pattern.text.length)
    else none
  | next :: ahead =>
    if hash == pattern.hash && pattern.text.isPrefixOf text then
      some (done.reverse, text.drop pattern.text.length)
    else
      match text with
      | [] => none
      | c :: rest =>
        let hash := hash * hashBase + next.val.toUInt64 - c.val.toUInt64 * pattern.weight
        scanOnto? pattern hash (c :: done) rest ahead

/-- What stands before the first occurrence of a pattern and what behind it. -/
def cut? (pattern text : List Char) : Option (List Char × List Char) :=
  let stretch := text.take pattern.length
  if stretch.length = pattern.length then
    scanOnto? (.ofText pattern) (stretchHash 0 stretch) [] text (text.drop pattern.length)
  else none

theorem foldl_weight (start : UInt64) (text : List Char) :
    text.foldl (fun weight _ => weight * hashBase) start = start * weight text := by
  induction text generalizing start with
  | nil => simp [weight]
  | cons c rest ih =>
    rw [weight, List.foldl_cons, List.foldl_cons, ih, ih (1 * hashBase)]
    grind

theorem weight_cons (c : Char) (rest : List Char) :
    weight (c :: rest) = hashBase * weight rest := by
  rw [weight, List.foldl_cons, foldl_weight]
  grind

theorem weight_eq_of_length_eq {a b : List Char} (h : a.length = b.length) :
    weight a = weight b := by
  induction a generalizing b with
  | nil => cases b <;> simp_all
  | cons c a ih =>
    cases b with
    | nil => simp at h
    | cons d b => rw [weight_cons, weight_cons, ih (by simpa using h)]

theorem stretchHash_eq (start : UInt64) (text : List Char) :
    stretchHash start text = start * weight text + stretchHash 0 text := by
  induction text generalizing start with
  | nil => simp [stretchHash, weight]
  | cons c rest ih =>
    rw [weight_cons, stretchHash, stretchHash, List.foldl_cons, List.foldl_cons]
    have first := ih (start * hashBase + c.val.toUInt64)
    have second := ih (0 * hashBase + c.val.toUInt64)
    simp only [stretchHash] at first second
    rw [first, second]
    grind

/-- The hash of a stretch moved on by one character. -/
theorem stretchHash_move (c next : Char) (stretch : List Char) :
    stretchHash 0 (stretch ++ [next]) =
      stretchHash 0 (c :: stretch) * hashBase + next.val.toUInt64 -
        c.val.toUInt64 * weight (c :: stretch) := by
  have h : stretchHash 0 (c :: stretch) = stretchHash c.val.toUInt64 stretch := by
    simp [stretchHash]
  rw [h, stretchHash_eq c.val.toUInt64, weight_cons, stretchHash, List.foldl_append]
  simp only [List.foldl_cons, List.foldl_nil]
  rw [← stretchHash]
  grind

theorem hash_eq_of_isPrefixOf {pattern text : List Char} (h : pattern.isPrefixOf text = true) :
    stretchHash 0 (text.take pattern.length) = stretchHash 0 pattern := by
  rw [← List.prefix_iff_eq_take.1 (List.isPrefixOf_iff_prefix.1 h)]

theorem cutOnto?_eq_none {pattern text : List Char} (h : text.length < pattern.length)
    (done : List Char) : cutOnto? pattern done text = none := by
  induction text generalizing done with
  | nil => cases pattern <;> simp_all [cutOnto?]
  | cons c rest ih =>
    have : ¬ pattern <+: c :: rest := fun hp => by
      have := hp.length_le
      omega
    rw [cutOnto?, if_neg (by simpa [List.isPrefixOf_iff_prefix] using this)]
    exact ih (by simp at h; omega) _

theorem scanOnto?_eq {pattern text : List Char} (h : pattern.length ≤ text.length)
    (done : List Char) :
    scanOnto? (.ofText pattern) (stretchHash 0 (text.take pattern.length)) done text
      (text.drop pattern.length) = cutOnto? pattern done text := by
  induction text generalizing done with
  | nil =>
    obtain rfl : pattern = [] := List.length_eq_zero_iff.1 (by simpa using h)
    simp [scanOnto?, cutOnto?, Pattern.ofText]
  | cons c rest ih =>
    by_cases hp : pattern.isPrefixOf (c :: rest) = true
    · have hh := hash_eq_of_isPrefixOf hp
      rw [cutOnto?, if_pos hp]
      cases hd : (c :: rest).drop pattern.length <;>
        simp [scanOnto?, Pattern.ofText, hh, hp, ← hd]
    · rw [cutOnto?, if_neg hp]
      cases pattern with
      | nil => simp at hp
      | cons d pattern =>
        rw [List.length_cons, List.take_succ_cons, List.drop_succ_cons]
        rw [List.length_cons] at ih
        cases hd : rest.drop pattern.length with
        | nil =>
          rw [scanOnto?, if_neg (by simp [Pattern.ofText, hp])]
          have := List.drop_eq_nil_iff.1 hd
          exact (cutOnto?_eq_none (by simp; omega) _).symm
        | cons next ahead =>
          have hl := congrArg List.length hd
          have hn : pattern.length < rest.length := by simp at hl; omega
          rw [List.drop_eq_getElem_cons hn, List.cons.injEq] at hd
          have ht : rest.take (pattern.length + 1) = rest.take pattern.length ++ [next] := by
            rw [List.take_succ_eq_append_getElem hn, hd.1]
          have hw : weight (d :: pattern) = weight (c :: rest.take pattern.length) :=
            weight_eq_of_length_eq (by simp; omega)
          rw [scanOnto?, if_neg (by simp [Pattern.ofText, hp])]
          simp only [Pattern.ofText] at ih ⊢
          rw [hw, ← stretchHash_move, ← ht, ← hd.2]
          have := ih (by omega) (c :: done)
          rw [hw] at this
          exact this

theorem cut?_eq (pattern text : List Char) : cut? pattern text = cutOnto? pattern [] text := by
  have hlen :
      (text.take pattern.length).length = pattern.length ↔ pattern.length ≤ text.length := by
    rw [List.length_take]
    omega
  by_cases h : pattern.length ≤ text.length
  · rw [cut?, if_pos (hlen.2 h), scanOnto?_eq h]
  · rw [cut?, if_neg (mt hlen.1 h), cutOnto?_eq_none (Nat.lt_of_not_le h)]

theorem eq_append_of_cutOnto? {pattern done text before behind : List Char}
    (h : cutOnto? pattern done text = some (before, behind)) :
    done.reverse ++ text = before ++ pattern ++ behind := by
  induction text generalizing done with
  | nil =>
    simp only [cutOnto?] at h
    split at h <;> simp_all
  | cons c rest ih =>
    rw [cutOnto?] at h
    split at h
    · rename_i hp
      obtain ⟨rfl, rfl⟩ : done.reverse = before ∧ (c :: rest).drop pattern.length = behind := by
        simpa using h
      obtain ⟨tail, ht⟩ := List.isPrefixOf_iff_prefix.1 hp
      rw [← ht]
      simp
    · simpa using ih h

/-- The parts of a text that was cut at a pattern. -/
theorem eq_append_of_cut? {pattern text before behind : List Char}
    (h : cut? pattern text = some (before, behind)) : text = before ++ pattern ++ behind := by
  rw [cut?_eq] at h
  simpa using eq_append_of_cutOnto? h

end Horn.Text
