import Horn.Proofs.Builtin.Evaluation
import Horn.Proofs.Text.Cut

/-!
The first place of a pattern in a text, or of an element in a list.

A pattern stands at a position if the slice of its length that begins there is the pattern. The first
position from a start on is found, wherever the start lies and also if the pattern is empty, and minus one
stands for none. Positions count characters, for `index` as for `slice`.

A text is searched by a hash that is carried from place to place. `windowSearch?` is the search that
compares all windows of the text, with every bound and every sum checked: it never fails, and it comes to
the same place.
-/

set_option autoImplicit false
set_option relaxedAutoImplicit false

namespace Horn.Builtin

/-! ### The first of some positions -/

/-- The least position of a kind, or nothing if there is none. -/
def FindsFirst (holds : Nat → Prop) : Option Nat → Prop
  | some place => holds place ∧ ∀ i, holds i → place ≤ i
  | none => ∀ i, ¬holds i

/-- A word for the least position of a kind, or minus one exactly if there is none. -/
structure IsFirstPlace (holds : Int64 → Prop) (place : Int64) : Prop where
  absent_iff : place = -1 ↔ ∀ i, ¬holds i
  least : ∀ i, holds i → holds place ∧ place ≤ i

section Positions

variable {α : Type} {holds : Nat → Prop} {found other : Option Nat} {start : Nat}

theorem FindsFirst.unique (h : FindsFirst holds found) (k : FindsFirst holds other) : found = other := by
  cases found with
  | none =>
    cases other with
    | none => rfl
    | some place => exact absurd k.1 (h place)
  | some place =>
    cases other with
    | none => exact absurd h.1 (k place)
    | some place' => exact congrArg some (Nat.le_antisymm (h.2 place' k.1) (k.2 place h.1))

theorem FindsFirst.congr {holds' : Nat → Prop} (h : FindsFirst holds found)
    (same : ∀ i, holds i ↔ holds' i) : FindsFirst holds' found := by
  rwa [← funext fun i => propext (same i)]

/-- Counted from a start on, the first position is the first distance from the start. -/
theorem FindsFirst.shift (h : FindsFirst (fun i => holds (start + i)) found) :
    FindsFirst (fun i => start ≤ i ∧ holds i) (found.map (start + ·)) := by
  cases found with
  | none =>
    rintro i ⟨hstart, hi⟩
    obtain ⟨distance, rfl⟩ := Nat.exists_eq_add_of_le hstart
    exact h distance hi
  | some place =>
    refine ⟨⟨Nat.le_add_right _ _, h.1⟩, ?_⟩
    rintro i ⟨hstart, hi⟩
    obtain ⟨distance, rfl⟩ := Nat.exists_eq_add_of_le hstart
    exact Nat.add_le_add_left (h.2 distance hi) start

theorem findsFirst_findIdx? (p : α → Bool) (items : List α) :
    FindsFirst (fun i => (items[i]?).any p = true) (items.findIdx? p) := by
  cases hfound : items.findIdx? p with
  | none =>
    rw [List.findIdx?_eq_none_iff] at hfound
    intro i hi
    obtain ⟨item, hitem, hp⟩ := (Option.any_eq_true p _).1 hi
    rw [hfound item (List.mem_of_getElem? hitem)] at hp
    cases hp
  | some place =>
    obtain ⟨hlt, hplace, hbefore⟩ := List.findIdx?_eq_some_iff_getElem.1 hfound
    refine ⟨?_, fun i hi => Nat.le_of_not_lt fun hless => ?_⟩
    · show (items[place]?).any p = true
      rw [List.getElem?_eq_getElem hlt]
      exact hplace
    · change (items[i]?).any p = true at hi
      rw [List.getElem?_eq_getElem (Nat.lt_trans hless hlt)] at hi
      exact hbefore i hless hi

/-- A position that was found can be written as a word, if positions are words. -/
theorem FindsFirst.exists_isFirstPlace {words : Int64 → Prop} (h : FindsFirst holds found)
    (bound : ∀ i, holds i → i < 0x8000000000000000)
    (words_iff : ∀ w, words w ↔ 0 ≤ w.toInt ∧ holds w.toInt.toNat) :
    ∃ place, foundLiteral? found = some (.integer place) ∧ IsFirstPlace words place := by
  cases found with
  | none =>
    have hnone : ∀ w, ¬words w := fun w hw => h _ ((words_iff w).1 hw).2
    exact ⟨-1, rfl, ⟨fun _ => hnone, fun _ => rfl⟩, fun w hw => absurd hw (hnone w)⟩
  | some i =>
    obtain ⟨hi, hleast⟩ := h
    have hlt := bound i hi
    obtain ⟨place, hplace⟩ : ∃ place, int64? i = some place := by
      rw [← Option.ne_none_iff_exists', Ne, int64?_eq_none_iff]
      omega
    have hvalue := int64?_eq_some_iff.1 hplace
    have hwords : words place := by
      rw [words_iff, hvalue, Int.toNat_natCast]
      exact ⟨Int.natCast_nonneg i, hi⟩
    refine ⟨place, by rw [foundLiteral?, countLiteral?, hplace, Option.map_some], ⟨?_, fun hnone => ?_⟩,
      fun w hw => ⟨hwords, ?_⟩⟩
    · rintro rfl
      have hminus : (-1 : Int64).toInt = -1 := by decide
      omega
    · exact absurd hwords (hnone place)
    · obtain ⟨hpos, hw⟩ := (words_iff w).1 hw
      have hle := hleast _ hw
      rw [Int64.le_iff_toInt_le]
      omega

end Positions

/-! ### Patterns in a text -/

section Patterns

variable {text pattern : List Char} {start : Nat}

/-- A pattern stands at a position that does not lie behind the end. -/
def StandsAt (text pattern : List Char) (i : Nat) : Prop :=
  i ≤ text.length ∧ pattern <+: text.drop i

theorem part?_eq_some_iff {i : Nat} :
    part? text i pattern.length = some pattern ↔ StandsAt text pattern i := by
  rw [part?, Option.ite_none_right_eq_some, StandsAt, List.prefix_iff_eq_take, Option.some.injEq,
    eq_comm (a := pattern)]

theorem standsAt_drop {i : Nat} (range : start ≤ text.length) :
    StandsAt (text.drop start) pattern i ↔ StandsAt text pattern (start + i) := by
  rw [StandsAt, StandsAt, List.drop_drop, List.length_drop]
  exact and_congr_left fun _ => by omega

theorem findsFirst_cut? (text pattern : List Char) :
    FindsFirst (StandsAt text pattern) ((Text.cut? pattern text).map fun cut => cut.1.length) := by
  cases hcut : Text.cut? pattern text with
  | none =>
    rintro i ⟨-, hstands⟩
    exact Text.not_infix_of_cut? hcut (hstands.isInfix.trans (List.drop_suffix i text).isInfix)
  | some cut =>
    obtain ⟨before, behind⟩ := cut
    have hfirst := Text.isFirstCut_of_cut? hcut
    refine ⟨⟨?_, ?_⟩, ?_⟩
    · rw [hfirst.whole]
      simp only [List.length_append]
      omega
    · rw [hfirst.whole, List.append_assoc, List.drop_left]
      exact List.prefix_append _ _
    · rintro i ⟨-, hstands⟩
      exact Nat.le_of_not_lt fun hless => hfirst.first i hless hstands

/-- The occurrence that is found is the first position, from the start on, at which the pattern stands. -/
theorem findsFirst_occurrence? (text pattern : List Char) (start : Nat) :
    FindsFirst (fun i => start ≤ i ∧ StandsAt text pattern i) (occurrence? text pattern start) := by
  rw [occurrence?]
  split
  · rename_i hrange
    have hcut := (findsFirst_cut? (text.drop start) pattern).congr fun i => standsAt_drop hrange
    have hshift := hcut.shift
    rwa [Option.map_map] at hshift
  · rename_i hbehind
    rintro i ⟨hstart, hle, -⟩
    exact hbehind (Nat.le_trans hstart hle)

end Patterns

/-! ### Elements of a list -/

section Elements

variable {items : List Literal} {value : Literal} {start : Nat}

/-- An element of a list that equals a value stands at a position. -/
def HoldsAt (items : List Literal) (value : Literal) (i : Nat) : Prop :=
  (items[i]?).any (· == value) = true

theorem HoldsAt.lt_length {i : Nat} (h : HoldsAt items value i) : i < items.length := by
  obtain ⟨item, hitem, -⟩ := (Option.any_eq_true _ _).1 h
  exact (List.getElem?_eq_some_iff.1 hitem).1

theorem findsFirst_drop (items : List Literal) (value : Literal) (start : Nat) :
    FindsFirst (fun i => HoldsAt items value (start + i))
      ((items.drop start).findIdx? (· == value)) := by
  refine (findsFirst_findIdx? (· == value) (items.drop start)).congr fun i => ?_
  rw [List.getElem?_drop, HoldsAt]

/-- The place that is found is the first position, from the start on, of an element that equals the
value. -/
theorem findsFirst_elementPlace? (items : List Literal) (value : Literal) (start : Nat) :
    FindsFirst (fun i => start ≤ i ∧ HoldsAt items value i) (elementPlace? items value start) := by
  have hshift := (findsFirst_drop items value start).shift
  rwa [show (fun i => start + i) = (· + start) from funext fun i => Nat.add_comm start i] at hshift

end Elements

/-! ### The search by windows -/

/-- The sum of two positions, if it is a word. -/
def sum? (a b : Nat) : Option Nat :=
  if a + b < wordBound then some (a + b) else none

/-- What stands from a position on, if it does not lie behind the end. -/
def behind? {α : Type} (items : List α) (start : Nat) : Option (List α) :=
  if start ≤ items.length then some (items.drop start) else none

/-- All stretches of a size, from left to right; the size must not be zero. -/
def windows? {α : Type} (size : Nat) (items : List α) : Option (List (List α)) :=
  if size = 0 then none
  else some ((List.range (items.length + 1 - size)).map fun i => (items.drop i).take size)

/-- A distance that was found, counted from the start of the text or list. -/
def placeFrom? (start : Nat) : Option Nat → Option (Option Nat)
  | some distance => (sum? distance start).map some
  | none => some none

/-- The first occurrence of a pattern, found by comparing windows; nothing if a step leaves its range. -/
def windowSearch? (text pattern : List Char) (start : Nat) : Option (Option Nat) :=
  if text.length < start then some none
  else if pattern.isEmpty then some (some start)
  else
    (behind? text start).bind fun rest =>
      (windows? pattern.length rest).bind fun windows =>
        placeFrom? start (windows.findIdx? (· == pattern))

/-- The first place of an element, found by comparing elements; nothing if a step leaves its range. -/
def elementSearch? (items : List Literal) (value : Literal) (start : Nat) : Option (Option Nat) :=
  placeFrom? start ((items.drop start).findIdx? (· == value))

section Windows

variable {text pattern : List Char} {start : Nat}

theorem placeFrom?_eq_some {holds : Nat → Prop} {found : Option Nat}
    (h : FindsFirst (fun i => holds (start + i)) found) (bound : ∀ i, holds i → i < wordBound) :
    placeFrom? start found = some (found.map (start + ·)) := by
  cases found with
  | none => rfl
  | some distance =>
    have hlt : distance + start < wordBound := by
      rw [Nat.add_comm]
      exact bound _ h.1
    rw [placeFrom?, sum?, if_pos hlt, Option.map_some, Option.map_some, Nat.add_comm]

/-- The windows that equal a pattern are those at whose position it stands. -/
theorem findsFirst_windows (text : List Char) (nonempty : pattern ≠ []) :
    FindsFirst (StandsAt text pattern)
      (((List.range (text.length + 1 - pattern.length)).map fun i =>
        (text.drop i).take pattern.length).findIdx? (· == pattern)) := by
  refine (findsFirst_findIdx? _ _).congr fun i => ?_
  have hlength := List.length_pos_iff.2 nonempty
  rw [List.getElem?_map, StandsAt, List.prefix_iff_eq_take]
  constructor
  · intro hany
    obtain ⟨window, hwindow, hequal⟩ := (Option.any_eq_true _ _).1 hany
    obtain ⟨k, hk, rfl⟩ := Option.map_eq_some_iff.1 hwindow
    obtain ⟨hlt, rfl⟩ := List.getElem?_eq_some_iff.1 hk
    rw [List.length_range] at hlt
    rw [List.getElem_range] at hequal
    exact ⟨by omega, (eq_of_beq hequal).symm⟩
  · rintro ⟨hle, hequal⟩
    have hsize := congrArg List.length hequal
    rw [List.length_take, List.length_drop] at hsize
    rw [List.getElem?_range (by omega), Option.map_some, Option.any_some, ← hequal]
    exact beq_self_eq_true pattern

/-- The search by windows never leaves a range, and it finds the same occurrence. -/
theorem windowSearch?_eq (fits : text.length < wordBound) (pattern : List Char) (start : Nat) :
    windowSearch? text pattern start = some (occurrence? text pattern start) := by
  have hspec := findsFirst_occurrence? text pattern start
  rw [windowSearch?]
  split
  · rename_i hbehind
    have hnone : FindsFirst (fun i => start ≤ i ∧ StandsAt text pattern i) none := by
      rintro i ⟨hstart, hle, -⟩
      omega
    rw [hspec.unique hnone]
  · rename_i hrange
    have hrange := Nat.le_of_not_lt hrange
    split
    · rename_i hempty
      obtain rfl := List.isEmpty_iff.1 hempty
      have hhere : FindsFirst (fun i => start ≤ i ∧ StandsAt text [] i) (some start) :=
        ⟨⟨Nat.le_refl start, hrange, List.nil_prefix⟩, fun i hi => hi.1⟩
      rw [hspec.unique hhere]
    · rename_i hnonempty
      have hpattern : pattern ≠ [] := fun hnil => hnonempty (List.isEmpty_iff.2 hnil)
      have hsize : pattern.length ≠ 0 := fun hzero => hpattern (List.length_eq_zero_iff.1 hzero)
      have hwindows := (findsFirst_windows (text.drop start) hpattern).congr fun i =>
        standsAt_drop hrange
      rw [behind?, if_pos hrange, Option.bind_some, windows?, if_neg hsize, Option.bind_some,
        placeFrom?_eq_some hwindows fun i hi => Nat.lt_of_le_of_lt hi.1 fits,
        hspec.unique hwindows.shift]

theorem elementSearch?_eq {items : List Literal} (fits : items.length < wordBound) (value : Literal)
    (start : Nat) : elementSearch? items value start = some (elementPlace? items value start) := by
  have hdrop := findsFirst_drop items value start
  rw [elementSearch?, placeFrom?_eq_some hdrop fun i hi => Nat.lt_trans hi.lt_length fits,
    (findsFirst_elementPlace? items value start).unique hdrop.shift]

end Windows

/-! ### The built-ins -/

section Evaluation

variable {text pattern : String} {items : List Literal} {value : Literal} {start size length : Int64}

theorem position?_eq_some (nonneg : 0 ≤ start) : position? start = some start.toInt.toNat := by
  have hsign : ¬start.toInt < 0 := Int.not_lt.2 (Int64.le_iff_toInt_le.1 nonneg)
  rw [position?, if_neg hsign]

private theorem evaluate_len {input : Literal} {count : Nat} (r : Registry) (ambient : Ambient)
    (h : len [input] = countLiteral? count) :
    r.evaluate "len" [input] ambient = (some (.integer size), ambient) ↔ size.toInt = count := by
  have hfound : r.action? "len" [input].length = some (.compute len) := rfl
  rw [Registry.evaluate_integer ambient hfound (by rw [h, countLiteral?]), ← int64?_eq_some_iff]
  cases int64? (count : Int) <;> simp

/-- A text has a length if that is a word. -/
theorem evaluate_len_text (r : Registry) (ambient : Ambient) :
    r.evaluate "len" [.text text] ambient = (some (.integer size), ambient) ↔
      size.toInt = text.length :=
  evaluate_len r ambient (by rw [len])

theorem evaluate_len_list (r : Registry) (ambient : Ambient) :
    r.evaluate "len" [.list items] ambient = (some (.integer size), ambient) ↔
      size.toInt = items.length :=
  evaluate_len r ambient (by rw [len])

/-- A slice as long as a pattern is the pattern where that stands. -/
theorem evaluate_slice_eq_iff (r : Registry) (ambient : Ambient) {i : Int64} (nonneg : 0 ≤ i)
    (exact : length.toInt = pattern.length) :
    r.evaluate "slice" [.text text, .integer i, .integer length] ambient =
        (some (.text pattern), ambient) ↔ StandsAt text.toList pattern.toList i.toInt.toNat := by
  have hfound : r.action? "slice" [Literal.text text, .integer i, .integer length].length =
      some (.compute slice) := rfl
  have hlength : 0 ≤ length := by
    rw [Int64.le_iff_toInt_le, exact]
    exact Int.natCast_nonneg _
  have hcount : length.toInt.toNat = pattern.toList.length := by
    rw [exact, Int.toNat_natCast, String.length_toList]
  have hslice : slice [.text text, .integer i, .integer length] =
      (part? text.toList i.toInt.toNat pattern.toList.length).map fun cs => .text (String.ofList cs) := by
    rw [slice, position?_eq_some nonneg, position?_eq_some hlength, Option.bind_some, Option.bind_some,
      hcount]
  have hfree : ∀ value, slice [.text text, .integer i, .integer length] = some value →
      hasFloat value = false := by
    intro value hvalue
    rw [hslice] at hvalue
    obtain ⟨cs, -, rfl⟩ := Option.map_eq_some_iff.1 hvalue
    rfl
  rw [Registry.evaluate_floatFree ambient hfound hfree, hslice, ← part?_eq_some_iff]
  cases part? text.toList i.toInt.toNat pattern.toList.length with
  | none => simp
  | some cs => simp [String.ext_iff]

theorem evaluate_index {haystack needle : Literal} {place : Int64} (r : Registry) (ambient : Ambient)
    (h : index [haystack, needle, .integer start] = some (.integer place)) :
    r.evaluate "index" [haystack, needle, .integer start] ambient = (some (.integer place), ambient) := by
  have hfound : r.action? "index" [haystack, needle, Literal.integer start].length =
      some (.compute index) := rfl
  have hvalue : index [haystack, needle, .integer start] = (some place).map .integer := h
  exact Registry.evaluate_integer ambient hfound hvalue

/-- What a pattern is searched for in a text: the least position, not before the start and not behind the
end, at which the slice as long as the pattern is the pattern. -/
theorem exists_place_of_text (r : Registry) (ambient : Ambient) (nonneg : 0 ≤ start)
    (textLength : size.toInt = text.length) (patternLength : length.toInt = pattern.length) :
    ∃ place : Int64,
      foundLiteral? (occurrence? text.toList pattern.toList start.toInt.toNat) = some (.integer place) ∧
        IsFirstPlace (fun i => start ≤ i ∧ i ≤ size ∧
          r.evaluate "slice" [.text text, .integer i, .integer length] ambient =
            (some (.text pattern), ambient)) place := by
  have hsize : (text.toList.length : Int) = size.toInt := by rw [textLength, String.length_toList]
  have hrange := size.toInt_lt
  have hstart := Int64.le_iff_toInt_le.1 nonneg
  refine (findsFirst_occurrence? text.toList pattern.toList start.toInt.toNat).exists_isFirstPlace ?_ ?_
  · rintro i ⟨-, hle, -⟩
    omega
  · intro i
    constructor
    · rintro ⟨hfrom, -, hslice⟩
      rw [Int64.le_iff_toInt_le] at hfrom
      have hnonneg : 0 ≤ i := Int64.le_iff_toInt_le.2 (Int.le_trans hstart hfrom)
      have hstands := (evaluate_slice_eq_iff r ambient hnonneg patternLength).1 hslice
      exact ⟨Int.le_trans hstart hfrom, by omega, hstands⟩
    · rintro ⟨hpos, hfrom, hstands⟩
      have hle := hstands.1
      have hnonneg : 0 ≤ i := Int64.le_iff_toInt_le.2 hpos
      refine ⟨Int64.le_iff_toInt_le.2 (by omega), Int64.le_iff_toInt_le.2 (by omega), ?_⟩
      exact (evaluate_slice_eq_iff r ambient hnonneg patternLength).2 hstands

theorem exists_place_of_list (nonneg : 0 ≤ start) (listLength : size.toInt = items.length)
    (value : Literal) : ∃ place : Int64,
      foundLiteral? (elementPlace? items value start.toInt.toNat) = some (.integer place) ∧
        IsFirstPlace (fun i => start ≤ i ∧ HoldsAt items value i.toInt.toNat) place := by
  have hrange := size.toInt_lt
  have hstart := Int64.le_iff_toInt_le.1 nonneg
  refine (findsFirst_elementPlace? items value start.toInt.toNat).exists_isFirstPlace ?_ ?_
  · rintro i ⟨-, hholds⟩
    have hlt := hholds.lt_length
    omega
  · intro i
    rw [Int64.le_iff_toInt_le, Int64.toInt_zero] at *
    constructor
    · rintro ⟨hfrom, hholds⟩
      exact ⟨by omega, by omega, hholds⟩
    · rintro ⟨hpos, hfrom, hholds⟩
      exact ⟨by omega, hholds⟩

end Evaluation

/-- From a start that is not negative on, `index` finds the first position of a text at which the slice as
long as a pattern is the pattern, and the first element of a list that equals a value; it is minus one
exactly if there is none. The slice is the pattern where the characters of the pattern stand, and a search
by windows or by elements that checks every bound and every sum comes to the same place. -/
theorem index_finds_first (r : Registry) (ambient : Ambient) :
    (∀ (text pattern : String) (start size length : Int64), 0 ≤ start →
        r.evaluate "len" [.text text] ambient = (some (.integer size), ambient) →
        r.evaluate "len" [.text pattern] ambient = (some (.integer length), ambient) →
          ∃ place : Int64,
            r.evaluate "index" [.text text, .text pattern, .integer start] ambient =
                (some (.integer place), ambient) ∧
              IsFirstPlace (fun i => start ≤ i ∧ i ≤ size ∧
                r.evaluate "slice" [.text text, .integer i, .integer length] ambient =
                  (some (.text pattern), ambient)) place ∧
              (∀ i, 0 ≤ i → (r.evaluate "slice" [.text text, .integer i, .integer length] ambient =
                  (some (.text pattern), ambient) ↔
                StandsAt text.toList pattern.toList i.toInt.toNat)) ∧
              (windowSearch? text.toList pattern.toList start.toInt.toNat).map foundLiteral? =
                some (some (.integer place))) ∧
      ∀ (items : List Literal) (value : Literal) (start size : Int64), 0 ≤ start →
        r.evaluate "len" [.list items] ambient = (some (.integer size), ambient) →
          ∃ place : Int64,
            r.evaluate "index" [.list items, value, .integer start] ambient =
                (some (.integer place), ambient) ∧
              IsFirstPlace (fun i => start ≤ i ∧ HoldsAt items value i.toInt.toNat) place ∧
              (elementSearch? items value start.toInt.toNat).map foundLiteral? =
                some (some (.integer place)) := by
  constructor
  · intro text pattern start size length nonneg htext hpattern
    rw [evaluate_len_text] at htext hpattern
    have hrange := size.toInt_lt
    have hfits : text.toList.length < wordBound := by
      rw [String.length_toList, wordBound]
      omega
    obtain ⟨place, hplace, hfirst⟩ := exists_place_of_text r ambient nonneg htext hpattern
    refine ⟨place, evaluate_index r ambient ?_, hfirst, ?_, ?_⟩
    · rw [index, position?_eq_some nonneg, Option.bind_some, hplace]
    · exact fun i hi => evaluate_slice_eq_iff r ambient hi hpattern
    · rw [windowSearch?_eq hfits, Option.map_some, hplace]
  · intro items value start size nonneg hlist
    rw [evaluate_len_list] at hlist
    have hrange := size.toInt_lt
    have hfits : items.length < wordBound := by
      rw [wordBound]
      omega
    obtain ⟨place, hplace, hfirst⟩ := exists_place_of_list nonneg hlist value
    refine ⟨place, evaluate_index r ambient ?_, hfirst, ?_⟩
    · rw [index, position?_eq_some nonneg, Option.bind_some, hplace]
    · rw [elementSearch?_eq hfits, Option.map_some, hplace]

/-- In `éanan` the pattern `an` stands at the positions 1 and 3, of which 3 is the first from 2 on; and an
element that is found behind the start counts from the front of the list. -/
theorem index_finds_first_accented :
    let r : Registry := ⟨8⟩
    let items : List Literal := [.integer 5, .integer 6, .integer 5]
    ((0 : Int64) ≤ 2 ∧ r.evaluate "len" [.text "éanan"] default = (some (.integer 5), default) ∧
        r.evaluate "len" [.text "an"] default = (some (.integer 2), default) ∧
        r.evaluate "index" [.text "éanan", .text "an", .integer 2] default =
          (some (.integer 3), default) ∧
        IsFirstPlace (fun i => 2 ≤ i ∧ i ≤ 5 ∧
          r.evaluate "slice" [.text "éanan", .integer i, .integer 2] default =
            (some (.text "an"), default)) 3) ∧
      (0 : Int64) ≤ 1 ∧ r.evaluate "len" [.list items] default = (some (.integer 3), default) ∧
        r.evaluate "index" [.list items, .integer 5, .integer 1] default =
          (some (.integer 2), default) ∧
        IsFirstPlace (fun i => 1 ≤ i ∧ HoldsAt items (.integer 5) i.toInt.toNat) 2 := by
  intro r items
  have htext : r.evaluate "len" [.text "éanan"] default = (some (.integer 5), default) :=
    (evaluate_len_text r default).2 (by decide)
  have hpattern : r.evaluate "len" [.text "an"] default = (some (.integer 2), default) :=
    (evaluate_len_text r default).2 (by decide)
  have hlist : r.evaluate "len" [.list items] default = (some (.integer 3), default) :=
    (evaluate_len_list r default).2 (by decide)
  have hthree : r.evaluate "index" [.text "éanan", .text "an", .integer 2] default =
      (some (.integer 3), default) := by
    with_unfolding_all rfl
  have htwo : r.evaluate "index" [.list items, .integer 5, .integer 1] default =
      (some (.integer 2), default) := by
    with_unfolding_all rfl
  constructor
  · obtain ⟨place, hplace, hfirst, -⟩ :=
      (index_finds_first r default).1 "éanan" "an" 2 5 2 (by decide) htext hpattern
    rw [hthree] at hplace
    cases hplace
    exact ⟨by decide, htext, hpattern, hthree, hfirst⟩
  · obtain ⟨place, hplace, hfirst, -⟩ :=
      (index_finds_first r default).2 items (.integer 5) 1 3 (by decide) hlist
    rw [htwo] at hplace
    cases hplace
    exact ⟨by decide, hlist, htwo, hfirst⟩

end Horn.Builtin
