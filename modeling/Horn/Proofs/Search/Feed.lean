import Mathlib.Data.List.Basic
import Horn.Proofs.Fact.Renaming
import Horn.Search.Feed

/-!
Feeds can be read back.

What begins with the feed of a text, a literal or a fact begins with the feed of no other one, equality
of literals and names of variables aside, so the parts of a feed can be told apart although nothing
divides them: `Literal.of_feed_append`, `Fact.of_feed_append`. Hence `Search.feed_eq_iff_looksLike`:
partial solutions have the same feed if and only if they look alike.
-/

set_option autoImplicit false
set_option relaxedAutoImplicit false

namespace Horn

/-! ### Doubles -/

namespace Binary64

theorem magnitude_eq_mod (x : Float) : magnitude x = x.toBits.toNat % 0x8000000000000000 := by
  rw [magnitude, unsignedBits, UInt64.toNat_and]
  exact Nat.and_two_pow_sub_one_eq_mod x.toBits.toNat 63

theorem signed_iff_le {x : Float} : signed x = true ↔ 0x8000000000000000 ≤ x.toBits.toNat := by
  have hlt := x.toBits.toNat_lt
  have hshift : (x.toBits >>> 63).toNat = x.toBits.toNat / 0x8000000000000000 := by
    rw [UInt64.toNat_shiftRight]
    exact Nat.shiftRight_eq_div_pow _ _
  rw [signed, beq_iff_eq, ← UInt64.toNat_inj, hshift]
  change x.toBits.toNat / 0x8000000000000000 = 1 ↔ _
  omega

/-- The bits of a double are its sign and its magnitude. -/
theorem toBits_eq_iff {x y : Float} :
    x.toBits = y.toBits ↔ magnitude x = magnitude y ∧ signed x = signed y := by
  have hx := x.toBits.toNat_lt
  have hy := y.toBits.toNat_lt
  rw [Bool.eq_iff_iff, signed_iff_le, signed_iff_le, magnitude_eq_mod, magnitude_eq_mod,
    ← UInt64.toNat_inj]
  omega

private theorem isNaN_eq_false_of_magnitude {x : Float} (h : magnitude x = 0) : isNaN x = false := by
  rw [← Bool.not_eq_true, isNaN_iff, h]
  simp

private theorem toBits_ne_zero {x : Float} (h : magnitude x ≠ 0) : x.toBits ≠ 0 := by
  intro hzero
  rw [magnitude_eq_mod, hzero] at h
  exact h rfl

private theorem toBits_ne_nan {x : Float} (h : isNaN x = false) : x.toBits ≠ 0x7ff8000000000000 := by
  intro hnan
  rw [← Bool.not_eq_true, isNaN_iff, magnitude_eq_mod, hnan] at h
  exact h (by decide)

private theorem same_iff {x y : Float} (hx : isNaN x = false) (hy : isNaN y = false) :
    same x y = true ↔ magnitude x = magnitude y ∧ (magnitude x = 0 ∨ signed x = signed y) := by
  simp [same, hx, hy, unsignedBits_eq_iff, unsignedBits_eq_zero_iff]

/-- Equal doubles have the same canonical bits, and others have not. -/
theorem canonicalBits_eq_iff {x y : Float} :
    canonicalBits x = canonicalBits y ↔ same x y = true := by
  have hnan : (0 : UInt64) ≠ 0x7ff8000000000000 := by decide
  simp only [canonicalBits, unsignedBits_eq_zero_iff]
  by_cases hx : magnitude x = 0 <;> by_cases hy : magnitude y = 0
  · have nx := isNaN_eq_false_of_magnitude hx
    have ny := isNaN_eq_false_of_magnitude hy
    simp [same_iff nx ny, hx, hy]
  · have nx := isNaN_eq_false_of_magnitude hx
    cases ny : isNaN y with
    | true => simp [same, hx, hy, nx, ny, hnan]
    | false => simp [same_iff nx ny, hx, hy, Ne.symm hy, (toBits_ne_zero hy).symm]
  · have ny := isNaN_eq_false_of_magnitude hy
    cases nx : isNaN x with
    | true => simp [same, hx, hy, nx, ny, hnan.symm]
    | false => simp [same_iff nx ny, hx, hy, toBits_ne_zero hx]
  · cases nx : isNaN x <;> cases ny : isNaN y
    · simp [same_iff nx ny, hx, hy, toBits_eq_iff]
    · simp [same, hx, hy, nx, ny, toBits_ne_nan nx]
    · simp [same, hx, hy, nx, ny, (toBits_ne_nan ny).symm]
    · simp [same, hx, hy, nx, ny]

end Binary64

/-! ### Texts -/

namespace Feed

private theorem ff_notMem_utf8EncodeChar (c : Char) : (0xff : UInt8) ∉ String.utf8EncodeChar c := by
  have hvalid : c.val.toNat < 0x110000 := by
    have hc := c.valid
    simp only [UInt32.isValidChar, Nat.isValidChar] at hc
    omega
  dsimp only [String.utf8EncodeChar]
  generalize c.val.toNat = v at hvalid
  split_ifs <;>
    simp only [List.mem_cons, List.not_mem_nil, or_false, not_or, ← UInt8.toNat_inj,
      UInt8.toNat_ofNat', UInt8.reduceToNat] <;>
    omega

/-- The byte that ends a text is in no text. -/
theorem ff_notMem_toUTF8 (text : String) : (0xff : UInt8) ∉ text.toUTF8.data.toList := by
  obtain ⟨chars, hbytes⟩ := text.isValidUTF8
  rw [String.toUTF8, hbytes, List.utf8Encode, List.data_toByteArray, List.mem_flatMap]
  rintro ⟨c, -, hc⟩
  exact ff_notMem_utf8EncodeChar c hc

private theorem append_cons_inj {α : Type} {xs ys s t : List α} {last : α} (hx : last ∉ xs)
    (hy : last ∉ ys) (h : xs ++ last :: s = ys ++ last :: t) : xs = ys ∧ s = t := by
  induction xs generalizing ys with
  | nil =>
    cases ys with
    | nil => exact ⟨rfl, List.tail_eq_of_cons_eq h⟩
    | cons y ys => exact absurd (List.head_eq_of_cons_eq h ▸ List.mem_cons_self) hy
  | cons x xs ih =>
    cases ys with
    | nil => exact absurd (List.head_eq_of_cons_eq h ▸ List.mem_cons_self) hx
    | cons y ys =>
      obtain ⟨rfl, hrest⟩ := List.cons.inj h
      rw [List.mem_cons, not_or] at hx hy
      obtain ⟨rfl, hst⟩ := ih hx.2 hy.2 hrest
      exact ⟨rfl, hst⟩

variable {s t : Feed}

/-- A text is read back from what begins with its feed, and so is what follows. -/
theorem of_ofText_append {x y : String} (h : ofText x ++ s = ofText y ++ t) : x = y ∧ s = t := by
  have hend (text : String) : Portion.byte 0xff ∉ text.toUTF8.data.toList.map .byte := by
    rw [List.mem_map]
    rintro ⟨b, hb, hff⟩
    cases hff
    exact ff_notMem_toUTF8 text hb
  simp only [ofText, List.append_assoc, List.singleton_append] at h
  obtain ⟨hbytes, hrest⟩ := append_cons_inj (hend x) (hend y) h
  have hlists := (List.map_injective_iff.2 fun _ _ hbyte => Portion.byte.inj hbyte) hbytes
  exact ⟨String.toByteArray_inj.1 (ByteArray.ext (Array.toList_inj.1 hlists)), hrest⟩

end Feed

/-! ### Literals and conditions -/

namespace Literal

variable {as bs : List Literal} {s t : Feed}

private theorem feedItems_eq
    (each : ∀ a ∈ as, ∀ b, a.same b = true → a.feed = b.feed) (h : sameItems as bs = true) :
    as.length = bs.length ∧ feedItems as = feedItems bs := by
  induction as generalizing bs with
  | nil => cases bs <;> simp_all [sameItems]
  | cons a as ih =>
    cases bs with
    | nil => simp [sameItems] at h
    | cons b bs =>
      simp only [sameItems, Bool.and_eq_true, List.forall_mem_cons] at h each
      obtain ⟨hlength, hrest⟩ := ih each.2 h.2
      rw [List.length_cons, List.length_cons, feedItems, feedItems, hlength, each.1 b h.1, hrest]
      exact ⟨rfl, rfl⟩

/-- Equal literals have the same feed. -/
theorem feed_eq_of_same (a b : Literal) (h : a.same b = true) : a.feed = b.feed := by
  match a with
  | .integer _ | .text _ => cases b <;> simp_all [same]
  | .float _ =>
    cases b <;> simp_all only [same, feed, Bool.false_eq_true]
    rw [Binary64.canonicalBits_eq_iff.2 h]
  | .list as =>
    cases b <;> simp_all only [same, feed, Bool.false_eq_true]
    obtain ⟨hlength, hitems⟩ := feedItems_eq (fun a _ b => feed_eq_of_same a b) h
    rw [hlength, hitems]
termination_by sizeOf a
decreasing_by
  simp only [list.sizeOf_spec]
  have := List.sizeOf_lt_of_mem ‹a ∈ as›
  omega

private theorem of_feedItems_append
    (each : ∀ a ∈ as, ∀ b s t, a.feed ++ s = b.feed ++ t → a.same b = true ∧ s = t)
    (length : as.length = bs.length) (h : feedItems as ++ s = feedItems bs ++ t) :
    sameItems as bs = true ∧ s = t := by
  induction as generalizing bs with
  | nil =>
    obtain rfl : bs = [] := List.length_eq_zero_iff.1 length.symm
    exact ⟨rfl, h⟩
  | cons a as ih =>
    cases bs with
    | nil => simp at length
    | cons b bs =>
      simp only [List.forall_mem_cons] at each
      rw [feedItems, feedItems, List.append_assoc, List.append_assoc] at h
      obtain ⟨hfirst, hbehind⟩ := each.1 _ _ _ h
      obtain ⟨hrest, hst⟩ := ih each.2 (by simpa using length) hbehind
      simp [sameItems, hfirst, hrest, hst]

/-- A literal is read back from what begins with its feed, and so is what follows. -/
theorem of_feed_append (a b : Literal) (s t : Feed) (h : a.feed ++ s = b.feed ++ t) :
    a.same b = true ∧ s = t := by
  match a with
  | .integer i =>
    cases b <;> simp [feed] at h
    obtain ⟨hbits, hrest⟩ := h
    have hvalue : i = _ := congrArg Int64.ofUInt64 (UInt64.toNat_inj.1 hbits)
    exact ⟨by simp [same, hvalue], hrest⟩
  | .float x =>
    cases b <;> simp [feed] at h
    obtain ⟨hbits, hrest⟩ := h
    exact ⟨Binary64.canonicalBits_eq_iff.1 (UInt64.toNat_inj.1 hbits), hrest⟩
  | .text x =>
    cases b <;> simp [feed] at h
    obtain ⟨rfl, hrest⟩ := Feed.of_ofText_append h
    exact ⟨by simp [same], hrest⟩
  | .list as =>
    cases b <;> simp [feed] at h
    obtain ⟨hlength, hitems⟩ := h
    exact of_feedItems_append (fun a _ b s t => of_feed_append a b s t) hlength hitems
termination_by sizeOf a
decreasing_by
  simp only [list.sizeOf_spec]
  have := List.sizeOf_lt_of_mem ‹a ∈ as›
  omega

end Literal

namespace Feed

variable {s t : Feed}

private theorem tag_inj {o p : Operator} (h : o.tag = p.tag) : o = p := by
  cases o <;> cases p <;> first | rfl | simp [Operator.tag] at h

theorem of_ofCondition_append {c d : Option Condition}
    (h : ofCondition c ++ s = ofCondition d ++ t) : (c == d) = true ∧ s = t := by
  cases c <;> cases d <;> simp [ofCondition] at h
  · exact ⟨rfl, h⟩
  · obtain ⟨htag, hrest⟩ := h
    obtain ⟨hoperand, hst⟩ := Literal.of_feed_append _ _ _ _ hrest
    exact ⟨Condition.beq_iff.2 ⟨tag_inj htag, hoperand⟩, hst⟩

end Feed

/-! ### Facts -/

/-- The numbers of names as they are met one after the other, if others were met before. -/
def Numbering.numbersFrom (seen : Numbering) : List VarName → List Nat
  | [] => []
  | name :: rest => seen.number name :: numbersFrom (seen.meet name) rest

namespace Numbering

theorem numbersFrom_eq (seen : Numbering) (names : List VarName) :
    seen.numbersFrom names = names.map (names.foldl meet seen).number := by
  induction names generalizing seen with
  | nil => rfl
  | cons name rest ih =>
    rw [numbersFrom, ih, List.map_cons, List.foldl_cons,
      number_foldl_meet rest (mem_meet seen name), number_meet_self]

theorem numbersFrom_append (seen : Numbering) (names others : List VarName) :
    seen.numbersFrom (names ++ others) =
      seen.numbersFrom names ++ (names.foldl meet seen).numbersFrom others := by
  induction names generalizing seen with
  | nil => rfl
  | cons name rest ih => rw [List.cons_append, numbersFrom, numbersFrom, ih]; rfl

end Numbering

theorem Variable.sameCondition_eq (v w : Variable) :
    v.sameCondition w = (v.condition == w.condition) := by
  rw [sameCondition]
  cases v.condition <;> cases w.condition <;> rfl

private theorem of_ofArgs_append {as bs : List Atom} {seen seen' : Numbering} {s t : Feed}
    (length : as.length = bs.length) (h : Feed.ofArgs seen as ++ s = Feed.ofArgs seen' bs ++ t) :
    as.isEqv bs Atom.sameShape = true ∧
      seen.numbersFrom ((as.filterMap Atom.occurrence?).map Variable.name) =
        seen'.numbersFrom ((bs.filterMap Atom.occurrence?).map Variable.name) ∧
      s = t := by
  induction as generalizing bs seen seen' with
  | nil =>
    obtain rfl : bs = [] := List.length_eq_zero_iff.1 length.symm
    exact ⟨rfl, rfl, h⟩
  | cons a as ih =>
    cases bs with
    | nil => simp at length
    | cons b bs =>
      have hlength : as.length = bs.length := by simpa using length
      cases a <;> cases b <;> simp [Feed.ofArgs] at h
      · obtain ⟨hnumber, hrest⟩ := h
        obtain ⟨hcondition, hbehind⟩ := Feed.of_ofCondition_append hrest
        obtain ⟨hshape, hnumbers, hst⟩ := ih hlength hbehind
        refine ⟨?_, congrArg₂ List.cons hnumber hnumbers, hst⟩
        rw [List.isEqv, hshape, Atom.sameShape, Variable.sameCondition_eq, hcondition]
        rfl
      · obtain ⟨hvalue, hbehind⟩ := Literal.of_feed_append _ _ _ _ h
        obtain ⟨hshape, hnumbers, hst⟩ := ih hlength hbehind
        refine ⟨?_, hnumbers, hst⟩
        rw [List.isEqv, hshape, Atom.sameShape, Literal.beq_def, hvalue]
        rfl

/-- A fact is read back from what begins with its feed, but for the names of its variables, of which the
numbers are. -/
theorem Fact.of_feed_append {f g : Fact} {seen seen' : Numbering} {s t : Feed}
    (h : f.feed seen ++ s = g.feed seen' ++ t) :
    f.sameShape g = true ∧ seen.numbersFrom f.varNames = seen'.numbersFrom g.varNames ∧ s = t := by
  rw [feed, feed, List.append_assoc, List.append_assoc] at h
  obtain ⟨hfunctor, hrest⟩ := Feed.of_ofText_append h
  obtain ⟨harity, hargs⟩ := List.cons.inj hrest
  obtain ⟨hshape, hnumbers, hst⟩ := of_ofArgs_append (Portion.word.inj harity) hargs
  refine ⟨?_, hnumbers, hst⟩
  rw [sameShape, hfunctor, hshape]
  simp

/-! ### Partial solutions -/

namespace Correspondence

variable {m : Correspondence} {xs ys : List VarName}

private theorem ofNames_meet (xs : List VarName) (x : VarName) :
    (Numbering.ofNames xs).meet x = .ofNames (xs ++ [x]) := by
  rw [Numbering.ofNames, Numbering.ofNames, List.foldl_append]
  rfl

private theorem ofArgs_eq {as bs : List Atom} (h : List.Forall₂ m.OfAtom as bs)
    (met : List.Forall₂ m.names xs ys) :
    Feed.ofArgs (.ofNames xs) as = Feed.ofArgs (.ofNames ys) bs := by
  induction h generalizing xs ys with
  | nil => rfl
  | cons first _ ih =>
    cases first with
    | lit literals =>
      rw [Feed.ofArgs, Feed.ofArgs, Literal.feed_eq_of_same _ _ (m.equal literals), ih met]
    | @var v w names condition =>
      have hcondition : Feed.ofCondition v.condition = Feed.ofCondition w.condition := by
        generalize v.condition = c at condition
        generalize w.condition = d at condition
        cases condition with
        | none => rfl
        | some h =>
          rw [Feed.ofCondition, Feed.ofCondition, h.operator,
            Literal.feed_eq_of_same _ _ (m.equal h.operand)]
      rw [Feed.ofArgs, Feed.ofArgs, number_eq met names, hcondition, ofNames_meet, ofNames_meet,
        ih (List.rel_append met (.cons names .nil))]

/-- Facts that correspond have the same feed if the names that were met before correspond. -/
theorem OfFact.feed_eq {f g : Fact} (h : m.OfFact f g) (met : List.Forall₂ m.names xs ys) :
    f.feed (.ofNames xs) = g.feed (.ofNames ys) := by
  rw [Fact.feed, Fact.feed, h.functor, h.arity, ofArgs_eq h.args met]

private theorem feedFrom_eq {a b : Search.Solution} (h : m.OfSolution a b)
    (met : List.Forall₂ m.names xs ys) :
    Search.feedFrom (.ofNames xs) a = Search.feedFrom (.ofNames ys) b := by
  induction h generalizing xs ys with
  | nil => rfl
  | @cons g g' _ _ first _ ih =>
    have hnames := first.fact.varNames
    have hmeet (xs names : List VarName) :
        names.foldl Numbering.meet (.ofNames xs) = .ofNames (xs ++ names) := by
      rw [Numbering.ofNames, Numbering.ofNames, List.foldl_append]
    rw [Search.feedFrom, Search.feedFrom, first.resolved, first.fact.feed_eq met, hmeet, hmeet,
      ih (List.rel_append met hnames)]

end Correspondence

namespace Search

variable {a b : Solution}

private theorem of_feedFrom_eq {seen seen' : Numbering} (h : feedFrom seen a = feedFrom seen' b) :
    a.isEqv b Goal.sameShape = true ∧
      seen.numbersFrom (occurring a) = seen'.numbersFrom (occurring b) := by
  induction a generalizing b seen seen' with
  | nil =>
    cases b with
    | nil => exact ⟨rfl, rfl⟩
    | cons g b => simp [feedFrom] at h
  | cons f a ih =>
    cases b with
    | nil => simp [feedFrom] at h
    | cons g b =>
      rw [feedFrom, feedFrom] at h
      obtain ⟨hflag, hrest⟩ := List.cons.inj h
      obtain ⟨hfact, hfirst, hbehind⟩ := Fact.of_feed_append hrest
      obtain ⟨hshape, hnumbers⟩ := ih hbehind
      have hresolved : f.resolved = g.resolved := by
        cases hf : f.resolved <;> cases hg : g.resolved <;> simp [hf, hg] at hflag ⊢
      constructor
      · rw [List.isEqv, hshape, Goal.sameShape, hresolved, hfact]
        simp
      · rw [occurring, occurring, List.flatMap_cons, List.flatMap_cons, Numbering.numbersFrom_append,
          Numbering.numbersFrom_append, hfirst]
        exact congrArg _ hnumbers

/-- Solutions have the same feed if and only if they look alike. -/
theorem feed_eq_iff_looksLike : feed a = feed b ↔ looksLike a b = true := by
  constructor
  · intro h
    obtain ⟨hshape, hnumbers⟩ := of_feedFrom_eq h
    rw [Numbering.numbersFrom_eq, Numbering.numbersFrom_eq] at hnumbers
    rw [looksLike, hshape, Bool.true_and, beq_iff_eq]
    exact hnumbers
  · intro h
    obtain ⟨m, hsolution, -, -⟩ := Correspondence.exists_of_looksLike h
    exact Correspondence.feedFrom_eq hsolution .nil

/-- Solutions look alike if and only if the same goals are discharged and the facts are alike as one
sequence. -/
theorem looksLike_iff_alikeAll : looksLike a b = true ↔
    a.map Goal.resolved = b.map Goal.resolved ∧
      Fact.alikeAll (a.map Goal.fact) (b.map Goal.fact) = true := by
  have hnumbers : Fact.numbers (a.map Goal.fact) = Fact.numbers (b.map Goal.fact) ↔
      numbering a = numbering b := by
    rw [← toList_numbers_fingerprint, ← toList_numbers_fingerprint, numbers_fingerprint,
      numbers_fingerprint, Array.toList_inj]
  have hshape : a.isEqv b Goal.sameShape = true ↔
      a.map Goal.resolved = b.map Goal.resolved ∧
        (a.map Goal.fact).isEqv (b.map Goal.fact) Fact.sameShape = true := by
    clear hnumbers
    induction a generalizing b with
    | nil => cases b <;> simp [List.isEqv]
    | cons g a ih =>
      cases b with
      | nil => simp [List.isEqv]
      | cons h b =>
        simp only [List.isEqv, List.map_cons, List.cons.injEq, Bool.and_eq_true, ih, Goal.sameShape,
          beq_iff_eq]
        tauto
  rw [looksLike, Fact.alikeAll, Bool.and_eq_true, Bool.and_eq_true, beq_iff_eq, beq_iff_eq, hshape,
    hnumbers, and_assoc]

/-- Facts have the same feed if and only if they are equal. -/
theorem feed_fact_eq_iff {f g : Fact} : f.feed [] = g.feed [] ↔ (f == g) = true := by
  have hfeed (f : Fact) : feed [Goal.pending 0 f] = .byte 0 :: f.feed [] :=
    congrArg (Portion.byte 0 :: ·) (List.append_nil _)
  calc f.feed [] = g.feed [] ↔ feed [Goal.pending 0 f] = feed [Goal.pending 0 g] := by
        rw [hfeed, hfeed, List.cons.injEq]
        simp
    _ ↔ looksLike [Goal.pending 0 f] [Goal.pending 0 g] = true := feed_eq_iff_looksLike
    _ ↔ Fact.alikeAll [f] [g] = true := by
        rw [← Fact.looksLike_pending]
        rfl

/-- The feed of a solution tells which goals are discharged and what the facts are up to one renaming
through the whole solution, and nothing else, and so does its fingerprint; the feed of a fact tells what
it is up to equality. -/
theorem feed_is_complete_invariant (a b : Solution) :
    (feed a = feed b ↔
      a.length = b.length ∧ a.map Goal.resolved = b.map Goal.resolved ∧
        ∃ change, Fact.Renames change (a.map Goal.fact) (b.map Goal.fact)) ∧
      (feed a = feed b ↔ (fingerprint a == fingerprint b) = true) ∧
      ∀ f g : Fact, f.feed [] = g.feed [] ↔ (f == g) = true := by
  refine ⟨?_, ?_, fun _ _ => feed_fact_eq_iff⟩
  · rw [feed_eq_iff_looksLike, looksLike_iff_alikeAll, Fact.alikeAll_iff_renames]
    refine ⟨fun h => ⟨?_, h⟩, And.right⟩
    simpa using congrArg List.length h.1
  · rw [feed_eq_iff_looksLike, fingerprint_beq]

end Search

end Horn
