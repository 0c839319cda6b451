import Horn.Builtin.Registry

/-!
What a registry makes of an operation, and which integers are words.
-/

set_option autoImplicit false
set_option relaxedAutoImplicit false

namespace Horn

/-! ### Words -/

/-- The words are the integers that `int64?` takes. -/
theorem int64?_eq_some_iff {n : Int} {w : Int64} : int64? n = some w ↔ w.toInt = n := by
  have hlow := w.le_toInt
  have hhigh := w.toInt_lt
  rw [int64?]
  constructor
  · intro h
    obtain ⟨range, hw⟩ := Option.ite_none_right_eq_some.1 h
    rw [← Option.some.inj hw]
    exact Int64.toInt_ofInt_of_le (by omega) (by omega)
  · rintro rfl
    rw [if_pos (by omega), Int64.ofInt_toInt]

theorem int64?_eq_none_iff {n : Int} : int64? n = none ↔
    n < -0x8000000000000000 ∨ 0x8000000000000000 ≤ n := by
  rw [int64?]
  split <;> simp <;> omega

namespace Builtin

/-! ### Values -/

mutual

/-- Only a double can be infinite or no number. -/
theorem isFiniteLiteral_of_hasFloat : (a : Literal) → hasFloat a = false → isFiniteLiteral a = true
  | .integer _, _ | .text _, _ => rfl
  | .list items, h => areFiniteItems_of_haveFloat items h

theorem areFiniteItems_of_haveFloat : (items : List Literal) → haveFloat items = false →
    areFiniteItems items = true
  | [], _ => rfl
  | a :: items, h => by
    obtain ⟨ha, hitems⟩ := Bool.or_eq_false_iff.1 h
    rw [areFiniteItems, isFiniteLiteral_of_hasFloat a ha, areFiniteItems_of_haveFloat items hitems]
    rfl

end

namespace Registry

variable {r : Registry} {name : String} {inputs : List Literal} {op : Operation}

/-- A registry knows a built-in at each of its arities. -/
theorem action?_of_find? {entry : Entry} {count : Nat} (found : r.find? name = some entry)
    (arity : r.hasArity entry (count + 1) = true) : r.action? name count = some entry.action := by
  rw [action?, found, Option.filter_some, if_pos arity, Option.map_some]

/-- A registry keeps what an operation comes to if it is finite, and leaves the ambient. -/
theorem evaluate_compute (ambient : Ambient)
    (found : r.action? name inputs.length = some (.compute op)) :
    r.evaluate name inputs ambient = ((op inputs).filter isFiniteLiteral, ambient) := by
  rw [evaluate, found]
  rfl

/-- An integer is finite, so an operation that comes to one has it as its value. -/
theorem evaluate_integer {value : Option Int64} (ambient : Ambient)
    (found : r.action? name inputs.length = some (.compute op))
    (computed : op inputs = value.map .integer) :
    r.evaluate name inputs ambient = (value.map .integer, ambient) := by
  rw [evaluate_compute ambient found, computed]
  cases value <;> rfl

theorem evaluate_text {text : String} (ambient : Ambient)
    (found : r.action? name inputs.length = some (.compute op))
    (computed : op inputs = some (.text text)) :
    r.evaluate name inputs ambient = (some (.text text), ambient) := by
  rw [evaluate_compute ambient found, computed]
  rfl

theorem evaluate_floatFree (ambient : Ambient)
    (found : r.action? name inputs.length = some (.compute op))
    (floatFree : ∀ value, op inputs = some value → hasFloat value = false) :
    r.evaluate name inputs ambient = (op inputs, ambient) := by
  rw [evaluate_compute ambient found]
  cases hvalue : op inputs with
  | none => rfl
  | some value => rw [Option.filter_some, if_pos (isFiniteLiteral_of_hasFloat value (floatFree value hvalue))]

end Registry

end Builtin

end Horn
