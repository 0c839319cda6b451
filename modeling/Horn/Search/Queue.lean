/-!
Queues: what is put in first is taken out first.

`Queue.toList` lists the elements in the order in which they will be taken; `push` puts one behind
them, and `pop?` takes the first one.
-/

set_option autoImplicit false
set_option relaxedAutoImplicit false

namespace Horn.Search

/-- A queue: the elements to take next, and behind them those put in since, the last one first. -/
structure Queue (α : Type) where
  front : List α
  back : List α

namespace Queue

variable {α : Type}

def empty : Queue α := ⟨[], []⟩

/-- The elements, the one to take next first. -/
def toList (q : Queue α) : List α :=
  q.front ++ q.back.reverse

def push (q : Queue α) (a : α) : Queue α :=
  { q with back := a :: q.back }

/-- The element to take next and the queue without it. -/
def pop? (q : Queue α) : Option (α × Queue α) :=
  match q.front with
  | a :: front => some (a, ⟨front, q.back⟩)
  | [] =>
    match q.back.reverse with
    | a :: front => some (a, ⟨front, []⟩)
    | [] => none

@[simp] theorem toList_empty : (empty : Queue α).toList = [] := rfl

@[simp] theorem toList_push (q : Queue α) (a : α) : (q.push a).toList = q.toList ++ [a] := by
  simp [toList, push]

theorem pop?_eq_none_iff {q : Queue α} : q.pop? = none ↔ q.toList = [] := by
  obtain ⟨front, back⟩ := q
  cases front <;> cases h : back.reverse <;> simp_all [pop?, toList]

theorem toList_of_pop? {q p : Queue α} {a : α} (h : q.pop? = some (a, p)) :
    q.toList = a :: p.toList := by
  obtain ⟨front, back⟩ := q
  cases front with
  | cons b front =>
    obtain ⟨rfl, rfl⟩ : b = a ∧ (⟨front, back⟩ : Queue α) = p := by simpa [pop?] using h
    simp [toList]
  | nil =>
    cases hb : back.reverse with
    | nil => simp [pop?, hb] at h
    | cons b front =>
      obtain ⟨rfl, rfl⟩ : b = a ∧ (⟨front, []⟩ : Queue α) = p := by simpa [pop?, hb] using h
      simp [toList, hb]

end Queue

end Horn.Search
