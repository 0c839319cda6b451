import Horn.Condition

/-!
Equal literals cannot be told apart by order, family and conditions.

Equality of literals takes the two zeros for one number, so it is coarser than identity. Still
`Literal.compare?` gives the same order for equal literals, and `Condition.holds_congr` says that
equal conditions hold of the same values.
-/

set_option autoImplicit false
set_option relaxedAutoImplicit false

namespace Horn

namespace Binary64

theorem compare?_eq_of_same_right {x y : Float} (h : same x y = true) (z : Float) :
    compare? z x = compare? z y := by
  simp only [same_eq, beq_iff_eq] at h
  simp [compare?_eq, h]

end Binary64

namespace Literal

theorem family_eq_of_same {a b : Literal} (h : a.same b = true) : a.family = b.family := by
  cases a <;> cases b <;> simp_all [same, family]

theorem typeName_eq_of_same {a b : Literal} (h : a.same b = true) : a.typeName = b.typeName := by
  cases a <;> cases b <;> simp_all [same, typeName]

private theorem compareItems?_congr_left {as bs : List Literal}
    (each : ∀ a ∈ as, ∀ b, a.same b = true → ∀ c, a.compare? c = b.compare? c)
    (h : sameItems as bs = true) (cs : List Literal) :
    compareItems? as cs = compareItems? bs cs := by
  induction as generalizing bs cs with
  | nil => cases bs <;> simp_all [sameItems]
  | cons a as ih =>
    cases bs with
    | nil => simp [sameItems] at h
    | cons b bs =>
      simp only [sameItems, Bool.and_eq_true, List.forall_mem_cons] at h each
      cases cs with
      | nil => rfl
      | cons c cs => rw [compareItems?, compareItems?, each.1 b h.1 c, ih each.2 h.2 cs]

private theorem compareItems?_congr_right {as bs : List Literal}
    (each : ∀ a ∈ as, ∀ b, a.same b = true → ∀ c : Literal, c.compare? a = c.compare? b)
    (h : sameItems as bs = true) (cs : List Literal) :
    compareItems? cs as = compareItems? cs bs := by
  induction as generalizing bs cs with
  | nil => cases bs <;> simp_all [sameItems]
  | cons a as ih =>
    cases bs with
    | nil => simp [sameItems] at h
    | cons b bs =>
      simp only [sameItems, Bool.and_eq_true, List.forall_mem_cons] at h each
      cases cs with
      | nil => rfl
      | cons c cs => rw [compareItems?, compareItems?, each.1 b h.1 c, ih each.2 h.2 cs]

theorem compare?_congr_left (a b : Literal) (h : a.same b = true) (c : Literal) :
    a.compare? c = b.compare? c := by
  match a with
  | .integer _ | .text _ => cases b <;> cases c <;> simp_all [same, compare?]
  | .float _ =>
    cases b <;> simp_all only [same, Bool.false_eq_true]
    cases c <;> simp only [compare?, Binary64.compare?_eq_of_same h]
  | .list as =>
    cases b <;> simp_all only [same, Bool.false_eq_true]
    cases c with
    | list cs =>
      exact compareItems?_congr_left (fun a _ b k c => compare?_congr_left a b k c) h cs
    | integer _ | float _ | text _ => simp only [compare?]
termination_by sizeOf a
decreasing_by
  simp only [list.sizeOf_spec]
  have := List.sizeOf_lt_of_mem ‹a ∈ as›
  omega

theorem compare?_congr_right (a b : Literal) (h : a.same b = true) (c : Literal) :
    c.compare? a = c.compare? b := by
  match a with
  | .integer _ | .text _ => cases b <;> cases c <;> simp_all [same, compare?]
  | .float _ =>
    cases b <;> simp_all only [same, Bool.false_eq_true]
    cases c <;> simp only [compare?, Binary64.compare?_eq_of_same_right h]
  | .list as =>
    cases b <;> simp_all only [same, Bool.false_eq_true]
    cases c with
    | list cs =>
      exact compareItems?_congr_right (fun a _ b k c => compare?_congr_right a b k c) h cs
    | integer _ | float _ | text _ => simp only [compare?]
termination_by sizeOf a
decreasing_by
  simp only [list.sizeOf_spec]
  have := List.sizeOf_lt_of_mem ‹a ∈ as›
  omega

end Literal

/-- Equal conditions hold of the same values, and of equal values alike. -/
theorem Condition.holds_congr {c d : Condition} {u v : Literal} (hc : (c == d) = true)
    (hu : (u == v) = true) : c.holds u = d.holds v := by
  obtain ⟨operators, operands⟩ := Condition.beq_iff.1 hc
  have hfamily : u.sameFamily c.operand = v.sameFamily d.operand := by
    rw [Literal.sameFamily, Literal.sameFamily, Literal.family_eq_of_same hu,
      Literal.family_eq_of_same operands]
  have horder : u.compare? c.operand = v.compare? d.operand := by
    rw [Literal.compare?_congr_left u v hu, Literal.compare?_congr_right _ _ operands]
  have htype : u.typeName = v.typeName := Literal.typeName_eq_of_same hu
  obtain ⟨operator, operand⟩ := c
  obtain ⟨_, operand'⟩ := d
  obtain rfl : operator = _ := operators
  cases operator with
  | lt | le | gt | ge => simp only [holds, horder]
  | ne => simp only [holds, horder, hfamily]
  | type =>
    simp only [holds]
    cases operand <;> cases operand' <;>
      simp_all [Literal.beq_def, Literal.same]

end Horn
