import Horn.Builtin.List
import Horn.Proofs.Comparison
import Horn.Proofs.Literal.Congruence

/-!
The order of literals without doubles.

Lists are compared by the first elements that differ, and there the comparison may have no answer. Main
statements: the comparison has the answer "equal" for equal literals only, it answers the other way round
if its sides change places, and being less is transitive; so it is a partial order, as
`compare?_orders_partially` says.
-/

set_option autoImplicit false
set_option relaxedAutoImplicit false

namespace Horn.Literal

open Builtin (hasFloat haveFloat)

theorem haveFloat_cons {a : Literal} {as : List Literal} (h : haveFloat (a :: as) = false) :
    hasFloat a = false ∧ haveFloat as = false :=
  Bool.or_eq_false_iff.1 h

theorem haveFloat_eq_false_iff {items : List Literal} :
    haveFloat items = false ↔ ∀ a ∈ items, hasFloat a = false := by
  induction items with
  | nil => simp [haveFloat]
  | cons a items ih => simp [haveFloat, ih]

theorem haveFloat_of_subset {items others : List Literal} (h : haveFloat items = false)
    (subset : others ⊆ items) : haveFloat others = false := by
  rw [haveFloat_eq_false_iff] at h ⊢
  exact fun a ha => h a (subset ha)

theorem compareItems?_cons_eq_some_eq {a b : Literal} {as bs : List Literal} :
    compareItems? (a :: as) (b :: bs) = some .eq ↔
      a.compare? b = some .eq ∧ compareItems? as bs = some .eq := by
  rw [compareItems?]
  split <;> simp_all

theorem compareItems?_cons_eq_some_lt {a b : Literal} {as bs : List Literal} :
    compareItems? (a :: as) (b :: bs) = some .lt ↔
      a.compare? b = some .lt ∨ a.compare? b = some .eq ∧ compareItems? as bs = some .lt := by
  rw [compareItems?]
  split <;> simp_all

mutual

theorem compare?_eq_some_eq_iff : (a b : Literal) → hasFloat a = false → hasFloat b = false →
    (a.compare? b = some .eq ↔ a = b)
  | .integer a, .integer b, _, _ => by simp [compare?]
  | .text a, .text b, _, _ => by simp [compare?]
  | .list as, .list bs, ha, hb => by
    rw [compare?, compareItems?_eq_some_eq_iff as bs ha hb, list.injEq]
  | .integer _, .text _, _, _ | .integer _, .list _, _, _ | .text _, .integer _, _, _
  | .text _, .list _, _, _ | .list _, .integer _, _, _ | .list _, .text _, _, _ => by simp [compare?]

theorem compareItems?_eq_some_eq_iff : (as bs : List Literal) → haveFloat as = false →
    haveFloat bs = false → (compareItems? as bs = some .eq ↔ as = bs)
  | [], [], _, _ | [], _ :: _, _, _ | _ :: _, [], _, _ => by simp [compareItems?]
  | a :: as, b :: bs, ha, hb => by
    obtain ⟨ha, has⟩ := haveFloat_cons ha
    obtain ⟨hb, hbs⟩ := haveFloat_cons hb
    rw [compareItems?_cons_eq_some_eq, compare?_eq_some_eq_iff a b ha hb,
      compareItems?_eq_some_eq_iff as bs has hbs, List.cons.injEq]

end

mutual

/-- The two sides of a comparison change places: the answer is the other way round, and none stays none. -/
theorem compare?_swap : (a b : Literal) → hasFloat a = false → hasFloat b = false →
    b.compare? a = (a.compare? b).map Ordering.swap
  | .integer _, .integer _, _, _ | .text _, .text _, _, _ => congrArg some Std.OrientedOrd.eq_swap
  | .list as, .list bs, ha, hb => compareItems?_swap as bs ha hb
  | .integer _, .text _, _, _ | .integer _, .list _, _, _ | .text _, .integer _, _, _
  | .text _, .list _, _, _ | .list _, .integer _, _, _ | .list _, .text _, _, _ => rfl

theorem compareItems?_swap : (as bs : List Literal) → haveFloat as = false → haveFloat bs = false →
    compareItems? bs as = (compareItems? as bs).map Ordering.swap
  | [], [], _, _ | [], _ :: _, _, _ | _ :: _, [], _, _ => rfl
  | a :: as, b :: bs, ha, hb => by
    obtain ⟨ha, has⟩ := haveFloat_cons ha
    obtain ⟨hb, hbs⟩ := haveFloat_cons hb
    rw [compareItems?, compareItems?, compare?_swap a b ha hb]
    cases a.compare? b with
    | none => rfl
    | some order =>
      cases order with
      | lt => rfl
      | eq => exact compareItems?_swap as bs has hbs
      | gt => rfl

end

mutual

/-- Where two pairs differ at different places, the first of both places decides the third pair. -/
theorem compare?_trans : (a b c : Literal) → hasFloat a = false → hasFloat b = false →
    hasFloat c = false → a.compare? b = some .lt → b.compare? c = some .lt → a.compare? c = some .lt
  | .integer a, .integer b, .integer c, _, _, _, h, k | .text a, .text b, .text c, _, _, _, h, k => by
    simp only [compare?, Option.some.injEq] at h k ⊢
    exact Std.TransCmp.lt_trans h k
  | .list as, .list bs, .list cs, ha, hb, hc, h, k => compareItems?_trans as bs cs ha hb hc h k

theorem compareItems?_trans : (as bs cs : List Literal) → haveFloat as = false →
    haveFloat bs = false → haveFloat cs = false → compareItems? as bs = some .lt →
    compareItems? bs cs = some .lt → compareItems? as cs = some .lt
  | [], _ :: _, _ :: _, _, _, _, _, _ => rfl
  | a :: as, b :: bs, c :: cs, ha, hb, hc, h, k => by
    obtain ⟨ha, has⟩ := haveFloat_cons ha
    obtain ⟨hb, hbs⟩ := haveFloat_cons hb
    obtain ⟨hc, hcs⟩ := haveFloat_cons hc
    rw [compareItems?_cons_eq_some_lt, compare?_eq_some_eq_iff _ _ ‹_› ‹_›] at h k ⊢
    rcases h with h | ⟨rfl, h⟩
    · rcases k with k | ⟨rfl, -⟩
      · exact .inl (compare?_trans a b c ha hb hc h k)
      · exact .inl h
    · rcases k with k | ⟨rfl, k⟩
      · exact .inl k
      · exact .inr ⟨rfl, compareItems?_trans as bs cs has hbs hcs h k⟩

end

/-- A literal in which no double occurs. -/
abbrev FloatFree : Type := { a : Literal // hasFloat a = false }

namespace FloatFree

def compare? (a b : FloatFree) : Option Ordering :=
  a.1.compare? b.1

theorem isPartialComparison : IsPartialComparison compare? where
  eq_iff {a b} := (compare?_eq_some_eq_iff a.1 b.1 a.2 b.2).trans Subtype.ext_iff.symm
  swap {a b} := compare?_swap a.1 b.1 a.2 b.2
  lt_trans {a b c} := compare?_trans a.1 b.1 c.1 a.2 b.2 c.2

end FloatFree

/-- The comparison has the answer "equal" for literals that are equal. -/
theorem compare?_eq_some_eq_iff_beq {a b : Literal} (ha : hasFloat a = false) (hb : hasFloat b = false) :
    a.compare? b = some .eq ↔ (a == b) = true := by
  have hself : a.compare? a = some .eq := (compare?_eq_some_eq_iff a a ha ha).2 rfl
  constructor
  · intro h
    obtain rfl := (compare?_eq_some_eq_iff a b ha hb).1 h
    exact BEq.rfl
  · intro h
    rwa [compare?_congr_right a b h a] at hself

/-- The comparison of literals without doubles is a partial order. It has the answer "equal" for equal
literals only; with its sides in the other places it answers the other way round, or has no answer either;
and of three literals in order the first and the last can be compared, and the first is less unless both
pairs are equal. -/
theorem compare?_orders_partially (a b c : Literal) (ha : hasFloat a = false) (hb : hasFloat b = false)
    (hc : hasFloat c = false) :
    (a.compare? b = some .eq ↔ (a == b) = true) ∧
      (b.compare? a = (a.compare? b).map Ordering.swap ∧ (b.compare? a = none ↔ a.compare? b = none)) ∧
      (AtMost compare? a b → AtMost compare? b c →
        a.compare? c = some (if a.compare? b = some .eq ∧ b.compare? c = some .eq then .eq else .lt)) := by
  have hswap := compare?_swap a b ha hb
  refine ⟨compare?_eq_some_eq_iff_beq ha hb, ⟨hswap, by rw [hswap, Option.map_eq_none_iff]⟩, ?_⟩
  rintro (hab | hab) (hbc | hbc)
  · rw [compare?_trans a b c ha hb hc hab hbc, hab, if_neg (by simp)]
  · obtain rfl := (compare?_eq_some_eq_iff b c hb hc).1 hbc
    rw [hab, if_neg (by simp)]
  · obtain rfl := (compare?_eq_some_eq_iff a b ha hb).1 hab
    rw [hbc, if_neg (by simp)]
  · obtain rfl := (compare?_eq_some_eq_iff a b ha hb).1 hab
    rw [hbc, hab, if_pos ⟨rfl, rfl⟩]

/-- The lists `[1, [2, 'a']]`, `[1, [2, 'b'], 5]` and `[1, [3]]` are in order, and different places decide
about the pairs; the first cannot be compared with `[1, [2, 7]]`. -/
theorem compare?_orders_partially_nested :
    let a : Literal := .list [.integer 1, .list [.integer 2, .text "a"]]
    let b : Literal := .list [.integer 1, .list [.integer 2, .text "b"], .integer 5]
    let c : Literal := .list [.integer 1, .list [.integer 3]]
    let d : Literal := .list [.integer 1, .list [.integer 2, .integer 7]]
    (hasFloat a = false ∧ hasFloat b = false ∧ hasFloat c = false ∧ hasFloat d = false) ∧
      (AtMost compare? a b ∧ AtMost compare? b c) ∧ a.compare? c = some .lt ∧ b.compare? a = some .gt ∧
      a.compare? d = none ∧ d.compare? a = none := by
  intro a b c d
  have hab : a.compare? b = some .lt := by decide +kernel
  have hbc : b.compare? c = some .lt := by decide +kernel
  have had : a.compare? d = none := by decide +kernel
  obtain ⟨-, ⟨hba, -⟩, htrans⟩ :=
    compare?_orders_partially a b c (by decide +kernel) (by decide +kernel) (by decide +kernel)
  obtain ⟨-, ⟨-, hda⟩, -⟩ :=
    compare?_orders_partially a d c (by decide +kernel) (by decide +kernel) (by decide +kernel)
  refine ⟨by decide +kernel, ⟨.inl hab, .inl hbc⟩, ?_, ?_, had, hda.2 had⟩
  · rw [htrans (.inl hab) (.inl hbc), hab, if_neg (by simp)]
  · rw [hba, hab]
    rfl

theorem exists_floatFree {items : List Literal} (h : haveFloat items = false) :
    ∃ free : List FloatFree, free.map Subtype.val = items := by
  rw [haveFloat_eq_false_iff] at h
  exact ⟨items.attach.map fun a => ⟨a.1, h a.1 a.2⟩, by simp⟩

/-- Two lists that cannot be compared, and between them one that lies behind both. -/
def forked : List Literal :=
  [.list [.integer 1, .text "a"], .list [.integer 2], .list [.integer 1, .integer 2]]

end Horn.Literal
