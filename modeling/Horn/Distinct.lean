import Std.Data.HashSet

/-!
Lists without repetitions.

`distinct` keeps the first of equal elements; it looks up the elements met so far by their hashes.
-/

set_option autoImplicit false
set_option relaxedAutoImplicit false

namespace Horn

variable {α : Type} [BEq α] [Hashable α]

/-- Goes through a list and keeps what was not met before; `done` holds what was kept already, the
last element first. -/
def distinctFrom (met : Std.HashSet α) (done : List α) : List α → List α
  | [] => done.reverse
  | a :: rest =>
    if met.contains a then distinctFrom met done rest
    else distinctFrom (met.insert a) (a :: done) rest

/-- The elements of a list, of equal ones only the first. -/
def distinct (items : List α) : List α :=
  distinctFrom ∅ [] items

theorem distinctFrom_eq [EquivBEq α] [LawfulHashable α] {met : Std.HashSet α} {done : List α}
    (h : ∀ a, met.contains a = done.any (a == ·)) (items : List α) :
    distinctFrom met done items = List.eraseDupsBy.loop (· == ·) items done := by
  induction items generalizing met done with
  | nil => rfl
  | cons a rest ih =>
    rw [distinctFrom, List.eraseDupsBy.loop, h a]
    cases done.any (a == ·) with
    | true => exact ih h
    | false =>
      refine ih fun b => ?_
      rw [Std.HashSet.contains_insert, h b, List.any_cons, BEq.comm]

theorem distinct_eq_eraseDups [EquivBEq α] [LawfulHashable α] (items : List α) :
    distinct items = items.eraseDups :=
  distinctFrom_eq (by simp) items

end Horn
