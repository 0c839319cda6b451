import Mathlib.Data.List.Forall2
import Horn.Proofs.Distinct
import Horn.Proofs.Memo.Recorded

/-!
A trie denotes the list of the tuples that were recorded in it.

`Trie.Denotes` says what the tables of a trie hold for a list of tuples: which tuples are whole, which
values go on from a beginning, and that these stand in the order in which they were first recorded.
Recording one more tuple keeps it, `Trie.Denotes.insert`, and a search through the trie finds the first
tuple that agrees with the arguments, `Trie.Denotes.find?_eq_some`, or there is none.
-/

set_option autoImplicit false
set_option relaxedAutoImplicit false

namespace Horn

/-- Whether a look-up with this argument goes on with a value: a literal stands for itself, a variable
for any value. -/
def Atom.takes (value : Literal) : Atom → Bool
  | .lit u => u == value
  | .var _ => true

namespace Memo

/-- A tuple answers a look-up: it is as long as the arguments and has their literals at their places. -/
abbrev Answers (args : List Atom) (us : List Literal) : Prop :=
  List.Forall₂ (fun a u => a.takes u = true) args us

/-- Whether a tuple begins with these values. -/
def begins (start us : List Literal) : Bool :=
  us.take start.length == start

/-- The position of the first tuple that begins with these values. -/
def firstWith (tuples : List (List Literal)) (start : List Literal) : Nat :=
  tuples.findIdx (begins start)

/-- At the place where two tuples part, the value of the first one was recorded earlier than that of the
second one, behind the values that they share. -/
def Precedes (tuples : List (List Literal)) (us ws : List Literal) : Prop :=
  ∃ shared u w, begins (shared ++ [u]) us = true ∧ begins (shared ++ [w]) ws = true ∧
    firstWith tuples (shared ++ [u]) < firstWith tuples (shared ++ [w])

/-- Equal tuples answer the same look-ups. -/
theorem Answers.congr {args : List Atom} {us ws : List Literal} (h : Answers args us)
    (equal : (us == ws) = true) : Answers args ws := by
  induction h generalizing ws with
  | nil =>
    cases ws with
    | nil => exact .nil
    | cons _ _ => simp at equal
  | @cons a u _ _ takes _ ih =>
    cases ws with
    | nil => simp at equal
    | cons w ws =>
      rw [List.cons_beq_cons, Bool.and_eq_true] at equal
      refine .cons ?_ (ih equal.2)
      cases a with
      | lit v => exact BEq.trans takes equal.1
      | var v => rfl

/-! ### Beginnings -/

private theorem take_beq_take {us ws : List Literal} (h : (us == ws) = true) (n : Nat) :
    (us.take n == ws.take n) = true := by
  induction us generalizing ws n with
  | nil =>
    cases ws with
    | nil => exact BEq.rfl
    | cons _ _ => simp at h
  | cons u us ih =>
    cases ws with
    | nil => simp at h
    | cons w ws =>
      rw [List.cons_beq_cons, Bool.and_eq_true] at h
      cases n with
      | zero => rfl
      | succ n => rw [List.take_succ_cons, List.take_succ_cons, List.cons_beq_cons, h.1, ih h.2]; rfl

theorem append_singleton_beq {us ws : List Literal} {u w : Literal} :
    (us ++ [u] == ws ++ [w]) = (us == ws && u == w) := by
  induction us generalizing ws with
  | nil => cases ws <;> simp
  | cons v us ih =>
    cases ws with
    | nil => simp
    | cons x ws =>
      rw [List.cons_append, List.cons_append, List.cons_beq_cons, ih, List.cons_beq_cons,
        Bool.and_assoc]

theorem begins_congr {start start' us us' : List Literal} (hstart : (start == start') = true)
    (hus : (us == us') = true) : begins start us = begins start' us' := by
  have htake := take_beq_take hus start'.length
  rw [begins, begins, List.length_eq_of_beq hstart, Bool.eq_iff_iff]
  constructor
  · exact fun h => BEq.trans (BEq.symm htake) (BEq.trans h hstart)
  · exact fun h => BEq.trans htake (BEq.trans h (BEq.symm hstart))

/-- A tuple begins with as many values as make up its first part if they equal that part. -/
theorem begins_append_of_length {start first : List Literal} (h : first.length = start.length)
    (rest : List Literal) : begins start (first ++ rest) = (first == start) := by
  rw [begins, List.take_left' h]

theorem begins_append (start us : List Literal) : begins start (start ++ us) = true := by
  rw [begins_append_of_length rfl]
  exact BEq.rfl

theorem begins_append_cons (start : List Literal) (value : Literal) (us : List Literal) :
    begins (start ++ [value]) (start ++ value :: us) = true := by
  rw [List.append_cons start value us, begins_append]

/-- A tuple begins with one value more if that value comes next. -/
theorem begins_append_singleton (start : List Literal) (value : Literal) (us : List Literal) :
    begins (start ++ [value]) us = (begins start us && us[start.length]?.any (· == value)) := by
  rw [begins, begins, List.length_append, List.length_singleton, List.take_add_one]
  cases hnext : us[start.length]? with
  | none =>
    have hlength : us.length ≤ start.length := List.getElem?_eq_none_iff.1 hnext
    rw [Option.any_none, Bool.and_false, ← Bool.not_eq_true]
    intro h
    have := List.length_eq_of_beq h
    simp only [List.length_append, List.length_take, Option.toList_none, List.length_nil,
      List.length_singleton] at this
    omega
  | some v => exact append_singleton_beq

theorem begins_append_singleton_iff {start us : List Literal} {value : Literal} :
    begins (start ++ [value]) us = true ↔
      begins start us = true ∧ us[start.length]?.any (· == value) = true := by
  rw [begins_append_singleton, Bool.and_eq_true]

/-- The value that comes next in a tuple, if it begins with these values. -/
def following (start us : List Literal) : Option Literal :=
  if begins start us then us[start.length]? else none

theorem any_following (start : List Literal) (value : Literal) (us : List Literal) :
    (following start us).any (· == value) = begins (start ++ [value]) us := by
  rw [following, begins_append_singleton]
  cases begins start us <;> rfl

theorem following_eq_some_iff {start us : List Literal} {value : Literal} :
    following start us = some value ↔ begins start us = true ∧ us[start.length]? = some value := by
  rw [following, Option.ite_none_right_eq_some]

private theorem reverse_beq_reverse (us ws : List Literal) :
    (us.reverse == ws.reverse) = (us == ws) := by
  rw [Bool.eq_iff_iff]
  exact ⟨beq_of_reverse_beq, fun h => beq_of_reverse_beq (by simpa using h)⟩

private theorem cons_reverse_beq (start others : List Literal) (u w : Literal) :
    (u :: start.reverse == w :: others.reverse) = (start ++ [u] == others ++ [w]) := by
  rw [← reverse_beq_reverse (start ++ [u]), List.reverse_append, List.reverse_append]
  rfl

/-! ### The order of tuples -/

private theorem any_getElem?_of_begins {start us : List Literal} (h : begins start us = true) {i : Nat}
    (lt : i < start.length) : us[i]?.any (· == start[i]) = true := by
  induction start generalizing us i with
  | nil => simp at lt
  | cons value start ih =>
    cases us with
    | nil => simp [begins] at h
    | cons u us =>
      rw [begins, List.length_cons, List.take_succ_cons, List.cons_beq_cons, Bool.and_eq_true] at h
      cases i with
      | zero => simpa using h.1
      | succ i => simpa using ih h.2 (by simpa using lt)

private theorem beq_of_any {o : Option Literal} {u w : Literal} (hu : o.any (· == u) = true)
    (hw : o.any (· == w) = true) : (u == w) = true := by
  cases o with
  | none => simp at hu
  | some v => exact BEq.trans (BEq.symm hu) hw

variable {tuples : List (List Literal)} {shared shared' us ws : List Literal} {u w x y : Literal}

private theorem append_singleton_beq_of (hstart : (shared == shared') = true) (h : (u == w) = true) :
    (shared ++ [u] == shared' ++ [w]) = true := by
  rw [append_singleton_beq, hstart, h]
  rfl

private theorem firstWith_congr {start start' : List Literal} (h : (start == start') = true) :
    firstWith tuples start = firstWith tuples start' := by
  rw [firstWith, firstWith]
  congr 1
  funext us
  exact begins_congr h BEq.rfl

/-- Two tuples do not part before a place up to which they agree. -/
private theorem length_le_of_firstWith_lt (hus : begins (shared ++ [u]) us = true)
    (hws : begins (shared ++ [w]) ws = true)
    (hlt : firstWith tuples (shared ++ [u]) < firstWith tuples (shared ++ [w]))
    (hus' : begins shared' us = true) (hws' : begins shared' ws = true) :
    shared'.length ≤ shared.length := by
  by_contra hless
  have hu := (begins_append_singleton_iff.1 hus).2
  have hw := (begins_append_singleton_iff.1 hws).2
  have hplace := any_getElem?_of_begins hus' (Nat.lt_of_not_le hless)
  have hplace' := any_getElem?_of_begins hws' (Nat.lt_of_not_le hless)
  have hequal : (u == w) = true := BEq.trans (beq_of_any hu hplace) (beq_of_any hplace' hw)
  rw [firstWith_congr (append_singleton_beq_of BEq.rfl hequal)] at hlt
  exact Nat.lt_irrefl _ hlt

/-- Of two tuples at most one precedes the other. -/
theorem Precedes.asymm (h : Precedes tuples us ws) : ¬ Precedes tuples ws us := by
  rintro ⟨shared', x, y, hws', hus', hlt'⟩
  obtain ⟨shared, u, w, hus, hws, hlt⟩ := h
  obtain ⟨hfirst, hu⟩ := begins_append_singleton_iff.1 hus
  obtain ⟨hsecond, hw⟩ := begins_append_singleton_iff.1 hws
  obtain ⟨hfirst', hy⟩ := begins_append_singleton_iff.1 hus'
  obtain ⟨hsecond', hx⟩ := begins_append_singleton_iff.1 hws'
  have hle := length_le_of_firstWith_lt hus hws hlt hfirst' hsecond'
  have hle' := length_le_of_firstWith_lt hws' hus' hlt' hsecond hfirst
  have hlength : shared'.length = shared.length := Nat.le_antisymm hle hle'
  have hshared : (shared == shared') = true := by
    rw [begins, hlength] at hfirst'
    exact BEq.trans (BEq.symm hfirst) hfirst'
  rw [hlength] at hx hy
  have huy := append_singleton_beq_of hshared (beq_of_any hu hy)
  have hwx := append_singleton_beq_of hshared (beq_of_any hw hx)
  rw [firstWith_congr huy, firstWith_congr hwx] at hlt
  exact Nat.lt_asymm hlt hlt'

theorem Precedes.congr_right {vs : List Literal} (h : Precedes tuples us vs) (equal : (vs == ws) = true) :
    Precedes tuples us ws := by
  obtain ⟨shared, u, v, hus, hvs, hlt⟩ := h
  exact ⟨shared, u, v, hus, (begins_congr BEq.rfl equal).symm.trans hvs, hlt⟩

/-! ### What recording changes in the tables -/

namespace Trie

private theorem beq_of_length {path others : List Literal} (length : path.length ≠ others.length) :
    (path == others) = false := by
  rw [← Bool.not_eq_true]
  exact fun h => length (List.length_eq_of_beq h)

theorem next_offer (t : Trie) (path : List Literal) (value : Literal) (others : List Literal) :
    (t.offer path value).next others =
      if !t.choices.contains (value :: path) && path == others then (t.next others).push value
      else t.next others := by
  rw [offer]
  cases hknown : t.choices.contains (value :: path) with
  | true => rfl
  | false =>
    simp only [Bool.false_eq_true, if_false, Bool.not_false, Bool.true_and]
    rw [next, next, Std.HashMap.getD_insert, Std.HashMap.getD_alter]
    by_cases hsame : (value :: path == others) = true
    · have hpath : (path == others) = false := by
        refine beq_of_length fun hlength => ?_
        have := List.length_eq_of_beq hsame
        rw [List.length_cons] at this
        omega
      rw [if_pos hsame, hpath, if_neg Bool.false_ne_true]
      rw [Std.HashMap.contains_congr hsame] at hknown
      exact (Std.HashMap.getD_eq_fallback_of_contains_eq_false hknown).symm
    · rw [if_neg hsame]
      by_cases hpath : (path == others) = true
      · rw [if_pos hpath, if_pos hpath, Option.getD_some, ← Std.HashMap.getD_congr hpath,
          Std.HashMap.getD_eq_getD_getElem?]
      · rw [if_neg hpath, if_neg hpath]

theorem contains_offer {t : Trie} {path : List Literal}
    (rooted : path = [] ∨ t.choices.contains path = true) (value w : Literal) (others : List Literal) :
    (t.offer path value).choices.contains (w :: others) =
      (value :: path == w :: others || t.choices.contains (w :: others)) := by
  rw [offer]
  cases hknown : t.choices.contains (value :: path) with
  | true =>
    by_cases hsame : (value :: path == w :: others) = true
    · rw [Std.HashMap.contains_congr hsame] at hknown
      simp [hknown]
    · simp [Bool.eq_false_iff.2 hsame]
  | false =>
    simp only [Bool.false_eq_true, if_false]
    rw [Std.HashMap.contains_insert, Std.HashMap.contains_alter]
    by_cases hpath : (path == w :: others) = true
    · rcases rooted with rfl | hroot
      · simp at hpath
      · rw [Std.HashMap.contains_congr hpath] at hroot
        simp [hroot]
    · rw [if_neg hpath]

variable {t : Trie} {start values : List Literal}

/-- A beginning has a table of its own, unless it is empty. -/
private def IsRooted (t : Trie) (start : List Literal) : Prop :=
  start = [] ∨ t.choices.contains start.reverse = true

private theorem IsRooted.path (h : t.IsRooted start) :
    start.reverse = [] ∨ t.choices.contains start.reverse = true := by
  simpa [IsRooted] using h

private theorem IsRooted.offer (h : t.IsRooted start) (value : Literal) :
    (t.offer start.reverse value).IsRooted (start ++ [value]) := by
  right
  rw [List.reverse_append, List.reverse_singleton, List.singleton_append, contains_offer h.path]
  simp

theorem contains_insertFrom (rooted : t.IsRooted start) (others : List Literal) (w : Literal) :
    (t.insertFrom start.reverse values).choices.contains (w :: others.reverse) =
      (t.choices.contains (w :: others.reverse) ||
        decide (start.length ≤ others.length) && begins (others ++ [w]) (start ++ values)) := by
  induction values generalizing t start with
  | nil =>
    rw [insertFrom, List.append_nil, begins_append_singleton]
    by_cases hlength : start.length ≤ others.length
    · simp [List.getElem?_eq_none hlength]
    · simp [hlength]
  | cons value values ih =>
    have hoffer := contains_offer rooted.path value w others.reverse
    have hrest := ih (rooted.offer value)
    have hwhole : start ++ [value] ++ values = start ++ value :: values := by simp
    rw [List.reverse_append, List.reverse_singleton, List.singleton_append, hwhole] at hrest
    rw [insertFrom, hrest, hoffer, List.length_append, List.length_singleton, cons_reverse_beq]
    rcases Nat.lt_trichotomy start.length others.length with hless | hsame | hmore
    · rw [beq_of_length (by simp; omega), decide_eq_true (by omega : start.length + 1 ≤ others.length),
        decide_eq_true (by omega : start.length ≤ others.length)]
      simp
    · rw [← hwhole, begins_append_of_length (by simp [hsame]),
        decide_eq_false (by omega : ¬ start.length + 1 ≤ others.length),
        decide_eq_true (by omega : start.length ≤ others.length)]
      simp [Bool.or_comm]
    · rw [beq_of_length (by simp; omega), decide_eq_false (by omega : ¬ start.length + 1 ≤ others.length),
        decide_eq_false (by omega : ¬ start.length ≤ others.length)]
      simp

/-- A table gets one value more if the new tuple begins as the table says and goes on with a value that
is not there. -/
theorem next_insertFrom (rooted : t.IsRooted start) (others : List Literal) :
    (t.insertFrom start.reverse values).next others.reverse =
      match following others (start ++ values) with
      | none => t.next others.reverse
      | some value =>
        if start.length ≤ others.length ∧ t.choices.contains (value :: others.reverse) = false then
          (t.next others.reverse).push value
        else t.next others.reverse := by
  induction values generalizing t start with
  | nil =>
    rw [insertFrom, List.append_nil]
    cases hnext : following others start with
    | none => rfl
    | some value =>
      have hlength := (List.getElem?_eq_some_iff.1 (following_eq_some_iff.1 hnext).2).1
      exact (if_neg fun h => absurd h.1 (Nat.not_le_of_lt hlength)).symm
  | cons value values ih =>
    have hoffer := next_offer t start.reverse value others.reverse
    have hrest := ih (rooted.offer value)
    have hwhole : start ++ [value] ++ values = start ++ value :: values := by simp
    rw [List.reverse_append, List.reverse_singleton, List.singleton_append, hwhole,
      List.length_append, List.length_singleton] at hrest
    rw [insertFrom, hrest]
    -- The table changes at once if it is that of `start`, and behind that beginning if it is a later one.
    by_cases hsame : start.length = others.length
    · have hbegins : begins others (start ++ value :: values) = (start == others) :=
        begins_append_of_length hsame _
      have hget : (start ++ value :: values)[others.length]? = some value := by
        rw [← hsame]
        simp
      rw [following, hbegins, hget, hoffer, reverse_beq_reverse]
      by_cases hequal : (start == others) = true
      · have hpath : (value :: start.reverse == value :: others.reverse) = true := by
          rw [cons_reverse_beq, append_singleton_beq, hequal]
          simp
        rw [Std.HashMap.contains_congr hpath]
        have hshort : ¬ others.length + 1 ≤ others.length := Nat.not_succ_le_self _
        simp [hequal, hsame, hshort]
      · simp [hequal]
    · have hpath : (start.reverse == others.reverse) = false := by
        rw [reverse_beq_reverse]
        exact beq_of_length hsame
      rw [hoffer, hpath, Bool.and_false, if_neg Bool.false_ne_true]
      cases following others (start ++ value :: values) with
      | none => rfl
      | some next =>
        have hcontains := contains_offer rooted.path value next others.reverse
        rw [beq_of_length (by simpa using hsame), Bool.false_or] at hcontains
        simp only [hcontains, show start.length + 1 ≤ others.length ↔ start.length ≤ others.length by omega]

/-! ### The tuples that a trie denotes -/

/-- What the tables of a trie hold if these are the tuples that were recorded in it, in order. -/
structure Denotes (t : Trie) (tuples : List (List Literal)) : Prop where
  whole : ∀ us, t.contains us = tuples.any (· == us)
  rooted : ∀ start value,
    t.choices.contains (value :: start.reverse) = tuples.any (begins (start ++ [value]))
  offered : ∀ start value,
    (t.next start.reverse).any (· == value) = tuples.any (begins (start ++ [value]))
  ordered : ∀ start, (t.next start.reverse).toList.Pairwise fun u w =>
    firstWith tuples (start ++ [u]) < firstWith tuples (start ++ [w])
  size : t.count = (distinct tuples).length

theorem denotes_empty : empty.Denotes [] where
  size := by simp [distinct, distinctFrom]
  whole := by simp
  rooted := by simp [empty]
  offered := by simp [empty, next]
  ordered := by simp [empty, next]

variable {tuples : List (List Literal)}

private theorem firstWith_append_of_any {start : List Literal} (h : tuples.any (begins start) = true)
    (us : List Literal) : firstWith (tuples ++ [us]) start = firstWith tuples start := by
  have hlt : tuples.findIdx (begins start) < tuples.length := by
    rw [List.findIdx_lt_length]
    simpa using h
  rw [firstWith, List.findIdx_append, if_pos hlt]
  rfl

private theorem firstWith_append_of_not_any {start us : List Literal}
    (h : tuples.any (begins start) = false) (new : begins start us = true) :
    firstWith (tuples ++ [us]) start = tuples.length := by
  have hlt : ¬ tuples.findIdx (begins start) < tuples.length := by
    rw [List.findIdx_lt_length]
    simpa using h
  rw [firstWith, List.findIdx_append, if_neg hlt, List.findIdx_cons, new]
  simp

private theorem firstWith_lt_length {start : List Literal} (h : tuples.any (begins start) = true) :
    firstWith tuples start < tuples.length := by
  rw [firstWith, List.findIdx_lt_length]
  simpa using h

private theorem contains_insert_cons (t : Trie) (us start : List Literal) (value : Literal) :
    (t.insert us).choices.contains (value :: start.reverse) =
      (t.choices.contains (value :: start.reverse) || begins (start ++ [value]) us) := by
  have hroot : t.IsRooted [] := .inl rfl
  exact (contains_insertFrom hroot start value).trans (by simp)

private theorem next_insert (t : Trie) (us start : List Literal) :
    (t.insert us).next start.reverse =
      match following start us with
      | none => t.next start.reverse
      | some value =>
        if t.choices.contains (value :: start.reverse) = false then (t.next start.reverse).push value
        else t.next start.reverse := by
  have hroot : t.IsRooted [] := .inl rfl
  exact (next_insertFrom hroot start).trans (by simp)

private theorem Denotes.any_begins_of_mem (h : t.Denotes tuples) {start : List Literal} {value : Literal}
    (mem : value ∈ (t.next start.reverse).toList) : tuples.any (begins (start ++ [value])) = true := by
  rw [← h.offered, Array.any_eq_true']
  exact ⟨value, Array.mem_toList_iff.1 mem, BEq.rfl⟩

private theorem Denotes.ordered_append (h : t.Denotes tuples) (start us : List Literal) :
    (t.next start.reverse).toList.Pairwise fun u w =>
      firstWith (tuples ++ [us]) (start ++ [u]) < firstWith (tuples ++ [us]) (start ++ [w]) := by
  refine (h.ordered start).imp_of_mem fun {u w} hu hw hlt => ?_
  rwa [firstWith_append_of_any (h.any_begins_of_mem hu), firstWith_append_of_any (h.any_begins_of_mem hw)]

/-- Recording a tuple. -/
theorem Denotes.insert (h : t.Denotes tuples) (us : List Literal) :
    (t.insert us).Denotes (tuples ++ [us]) where
  whole ws := by
    rw [contains_insert, reverse_beq_reverse, h.whole, List.any_append, List.any_cons, List.any_nil,
      Bool.or_false, Bool.or_comm]
  size := by
    rw [count_insert, h.whole, distinct_append_singleton, h.size]
    simp only [BEq.comm]
    split <;> simp
  rooted start value := by
    rw [contains_insert_cons, h.rooted, List.any_append, List.any_cons, List.any_nil, Bool.or_false]
  offered start value := by
    rw [next_insert, List.any_append, List.any_cons, List.any_nil, Bool.or_false, ← any_following]
    cases following start us with
    | none => simpa using h.offered start value
    | some new =>
      simp only [h.rooted, Option.any_some]
      split
      · rw [Array.any_push, h.offered]
      · rename_i hold
        rw [Bool.not_eq_false] at hold
        cases hequal : new == value with
        | false => rw [Bool.or_false, h.offered]
        | true =>
          have hstart : (start ++ [new] == start ++ [value]) = true := by
            rw [append_singleton_beq, hequal]
            simp
          rw [Bool.or_true, h.offered, ← hold]
          congr 1
          funext ws
          exact (begins_congr hstart BEq.rfl).symm
  ordered start := by
    rw [next_insert]
    cases hnext : following start us with
    | none => exact h.ordered_append start us
    | some new =>
      simp only [h.rooted]
      split
      · rename_i hnew
        have hbegins : begins (start ++ [new]) us = true := by
          rw [← any_following, hnext, Option.any_some]
          exact BEq.rfl
        rw [Array.toList_push, List.pairwise_append]
        refine ⟨h.ordered_append start us, List.pairwise_singleton _ _, fun u hu w hw => ?_⟩
        obtain rfl := List.mem_singleton.1 hw
        have hold := h.any_begins_of_mem hu
        rw [firstWith_append_of_any hold, firstWith_append_of_not_any hnew hbegins]
        exact firstWith_lt_length hold
      · exact h.ordered_append start us

/-! ### What a search through a trie finds -/

variable {args : List Atom}

theorem contains_congr (t : Trie) {us ws : List Literal} (h : (us == ws) = true) :
    t.contains us = t.contains ws := by
  rw [contains, contains]
  exact Std.HashSet.contains_congr (by rwa [reverse_beq_reverse])

private theorem append_cons_beq (start : List Literal) {u w : Literal} (us : List Literal)
    (h : (u == w) = true) : (start ++ u :: us == start ++ w :: us) = true := by
  induction start with
  | nil => simp [h]
  | cons v start ih => simpa using ih

/-- Where a tuple goes on, so does the table. -/
private theorem Denotes.exists_next (h : t.Denotes tuples) {w : Literal} {ws : List Literal}
    (hwhole : t.contains (start ++ w :: ws) = true) :
    ∃ u ∈ (t.next start.reverse).toList, (u == w) = true := by
  have hbegins : tuples.any (begins (start ++ [w])) = true := by
    rw [h.whole, List.any_eq_true] at hwhole
    obtain ⟨us, hus, hequal⟩ := hwhole
    refine List.any_eq_true.2 ⟨us, hus, ?_⟩
    rw [begins_congr BEq.rfl hequal, begins_append_cons]
  rw [← h.offered, Array.any_eq_true'] at hbegins
  obtain ⟨u, hu, hequal⟩ := hbegins
  exact ⟨u, Array.mem_toList_iff.2 hu, hequal⟩

/-- A search that finds nothing misses no tuple. -/
private theorem Denotes.contains_eq_false_of_findFrom? (h : t.Denotes tuples) (start : List Literal)
    (hfind : t.findFrom? start.reverse args = none) {ws : List Literal} (answers : Answers args ws) :
    t.contains (start ++ ws) = false := by
  induction answers generalizing start with
  | nil =>
    rw [findFrom?] at hfind
    rw [List.append_nil, contains]
    simpa using hfind
  | @cons a w args ws takes _ ih =>
    have hbehind {u : Literal} (hu : (u == w) = true) (hnone : t.findFrom? (u :: start.reverse) args = none) :
        t.contains (start ++ w :: ws) = false := by
      rw [← t.contains_congr (append_cons_beq start ws hu), List.append_cons]
      exact ih _ (by simpa using hnone)
    cases a with
    | lit v => exact hbehind takes hfind
    | var v =>
      rw [findFrom?, Array.findSome?_eq_none_iff] at hfind
      rw [← Bool.not_eq_true]
      intro hwhole
      obtain ⟨u, hu, hequal⟩ := h.exists_next hwhole
      rw [hbehind hequal (hfind u (Array.mem_toList_iff.1 hu))] at hwhole
      exact Bool.false_ne_true hwhole

/-- A search finds the first of the tuples that go on as the arguments allow. -/
private theorem Denotes.findFrom?_eq_some (h : t.Denotes tuples) (start : List Literal)
    {values : List Literal} (hfind : t.findFrom? start.reverse args = some values) :
    ∃ rest, values = start ++ rest ∧ Answers args rest ∧
      ∀ ws, Answers args ws → t.contains (start ++ ws) = true →
        (rest == ws) = true ∨ Precedes tuples (start ++ rest) (start ++ ws) := by
  induction args generalizing start with
  | nil =>
    rw [findFrom?] at hfind
    obtain ⟨-, hpath⟩ := Option.ite_none_right_eq_some.1 hfind
    refine ⟨[], by simpa using (Option.some.inj hpath).symm, .nil, fun ws answers _ => ?_⟩
    cases answers
    exact .inl BEq.rfl
  | cons a args ih =>
    -- What is found behind a value that the argument takes is the first of the tuples with that value.
    have hbehind {u : Literal} (takes : a.takes u = true)
        (hsome : t.findFrom? (u :: start.reverse) args = some values) :
        ∃ rest, values = start ++ u :: rest ∧ Answers (a :: args) (u :: rest) ∧
          ∀ w ws, (u == w) = true → Answers args ws → t.contains (start ++ w :: ws) = true →
            (u :: rest == w :: ws) = true ∨ Precedes tuples (start ++ u :: rest) (start ++ w :: ws) := by
      obtain ⟨rest, hvalues, answers, hfirst⟩ := ih (start ++ [u]) (by simpa using hsome)
      rw [← List.append_cons] at hvalues
      refine ⟨rest, hvalues, .cons takes answers, fun w ws hequal answers hwhole => ?_⟩
      have hsame := append_cons_beq start ws hequal
      rw [← t.contains_congr hsame, List.append_cons] at hwhole
      rcases hfirst ws answers hwhole with hrest | hbefore
      · exact .inl (by rw [List.cons_beq_cons, hequal, hrest]; rfl)
      · rw [← List.append_cons, ← List.append_cons] at hbefore
        exact .inr (hbefore.congr_right hsame)
    cases a with
    | lit v =>
      obtain ⟨rest, hvalues, answers, hfirst⟩ := hbehind (u := v) BEq.rfl hfind
      refine ⟨v :: rest, hvalues, answers, fun ws answers hwhole => ?_⟩
      cases answers with
      | cons takes answers => exact hfirst _ _ takes answers hwhole
    | var v =>
      rw [findFrom?, ← Array.findSome?_toList, List.findSome?_eq_some_iff] at hfind
      obtain ⟨earlier, u, later, hnext, hsome, hearlier⟩ := hfind
      obtain ⟨rest, hvalues, answers, hfirst⟩ := hbehind (u := u) rfl hsome
      refine ⟨u :: rest, hvalues, answers, fun ws answers hwhole => ?_⟩
      cases answers with
      | @cons _ w _ ws _ behind =>
        obtain ⟨x, hx, hequal⟩ := h.exists_next hwhole
        rw [hnext, List.mem_append, List.mem_cons] at hx
        rcases hx with hx | rfl | hx
        · -- Behind an earlier value there is no such tuple.
          have hnone := h.contains_eq_false_of_findFrom? (start ++ [x])
            (by simpa using hearlier x hx) behind
          rw [← List.append_cons, t.contains_congr (append_cons_beq start ws hequal), hwhole] at hnone
          exact absurd hnone.symm Bool.false_ne_true
        · exact hfirst w ws hequal behind hwhole
        · have hordered := h.ordered start
          rw [hnext, List.pairwise_append, List.pairwise_cons] at hordered
          refine .inr ⟨start, u, x, begins_append_cons start u rest, ?_, hordered.2.1.1 x hx⟩
          rw [← begins_congr BEq.rfl (append_cons_beq start ws hequal), begins_append_cons]

/-- What a search finds is a recorded tuple that answers it, and of these the first. -/
theorem Denotes.find?_eq_some (h : t.Denotes tuples) {values : List Literal}
    (hfind : t.find? args = some values) :
    Answers args values ∧ (∃ us ∈ tuples, (us == values) = true) ∧
      ∀ us ∈ tuples, Answers args us → (values == us) = true ∨ Precedes tuples values us := by
  have hwhole := (contains_of_find? hfind).1
  rw [h.whole, List.any_eq_true] at hwhole
  obtain ⟨rest, rfl, answers, hfirst⟩ := h.findFrom?_eq_some [] hfind
  refine ⟨answers, hwhole, fun us hus answers => hfirst us answers ?_⟩
  rw [List.nil_append, h.whole, List.any_eq_true]
  exact ⟨us, hus, BEq.rfl⟩

/-- A search finds something if a recorded tuple answers it. -/
theorem Denotes.isSome_find?_iff (h : t.Denotes tuples) :
    (t.find? args).isSome = true ↔ ∃ us ∈ tuples, Answers args us := by
  constructor
  · intro hsome
    obtain ⟨values, hvalues⟩ := Option.isSome_iff_exists.1 hsome
    obtain ⟨answers, ⟨us, hus, hequal⟩, -⟩ := h.find?_eq_some hvalues
    exact ⟨us, hus, answers.congr (BEq.symm hequal)⟩
  · rintro ⟨us, hus, answers⟩
    rw [Option.isSome_iff_ne_none]
    intro hnone
    have hmissed := h.contains_eq_false_of_findFrom? [] hnone answers
    rw [List.nil_append, h.whole, List.any_eq_false] at hmissed
    exact hmissed us hus BEq.rfl

end Trie

end Memo

end Horn
