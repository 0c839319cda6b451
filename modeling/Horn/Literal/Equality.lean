import Horn.Literal.Basic

/-!
Equality of literals is an equivalence, and equal literals have equal hashes.
-/

set_option autoImplicit false
set_option relaxedAutoImplicit false

namespace Horn.Literal

mutual

/-- A hash of a literal in which numbers count by their place on the line. -/
def hashCode : Literal → UInt64
  | .integer value => mixHash 3 (hash value)
  | .float value => mixHash 5 (Binary64.placeHash value)
  | .text value => mixHash 7 (hash value)
  | .list items => hashItems 11 items

/-- Continues a hash by the elements of a list. -/
def hashItems (done : UInt64) : List Literal → UInt64
  | [] => done
  | item :: rest => hashItems (mixHash done item.hashCode) rest

end

instance : Hashable Literal := ⟨hashCode⟩

mutual

theorem same_self : (a : Literal) → a.same a = true
  | .integer _ | .text _ => by simp [same]
  | .float x => by simp [same, Binary64.same_self]
  | .list items => by simp [same, sameItems_self items]

theorem sameItems_self : (as : List Literal) → sameItems as as = true
  | [] => rfl
  | a :: as => by simp [sameItems, same_self a, sameItems_self as]

end

mutual

theorem same_comm : (a b : Literal) → a.same b = b.same a
  | .integer a, .integer b | .text a, .text b => by simp [same, BEq.comm]
  | .float x, .float y => by simp [same, Binary64.same_comm x y]
  | .list as, .list bs => by simp [same, sameItems_comm as bs]
  | .integer _, .float _ | .integer _, .text _ | .integer _, .list _ | .float _, .integer _
  | .float _, .text _ | .float _, .list _ | .text _, .integer _ | .text _, .float _
  | .text _, .list _ | .list _, .integer _ | .list _, .float _ | .list _, .text _ => by simp [same]

theorem sameItems_comm : (as bs : List Literal) → sameItems as bs = sameItems bs as
  | [], [] | [], _ :: _ | _ :: _, [] => by simp [sameItems]
  | a :: as, b :: bs => by simp [sameItems, same_comm a b, sameItems_comm as bs]

end

theorem sameItems_trans {as bs cs : List Literal}
    (each : ∀ a ∈ as, ∀ b c, a.same b = true → b.same c = true → a.same c = true)
    (h : sameItems as bs = true) (k : sameItems bs cs = true) : sameItems as cs = true := by
  induction as generalizing bs cs with
  | nil => cases bs <;> simp_all [sameItems]
  | cons a as ih =>
    cases bs with
    | nil => simp [sameItems] at h
    | cons b bs =>
      cases cs with
      | nil => simp [sameItems] at k
      | cons c cs =>
        simp only [sameItems, Bool.and_eq_true, List.forall_mem_cons] at h k each ⊢
        exact ⟨each.1 b c h.1 k.1, ih each.2 h.2 k.2⟩

theorem same_trans (a b c : Literal) (h : a.same b = true) (k : b.same c = true) :
    a.same c = true := by
  match a with
  | .integer _ | .text _ => cases b <;> cases c <;> simp_all [same]
  | .float _ => cases b <;> cases c <;> simp_all [same, Binary64.same_eq]
  | .list as =>
    cases b <;> cases c <;> simp_all only [same, Bool.false_eq_true]
    exact sameItems_trans (fun a _ b c => same_trans a b c) h k
termination_by sizeOf a
decreasing_by
  simp only [list.sizeOf_spec]
  have := List.sizeOf_lt_of_mem ‹a ∈ as›
  omega

instance : EquivBEq Literal where
  rfl := same_self _
  symm h := (same_comm _ _).symm.trans h
  trans h k := same_trans _ _ _ h k

theorem hashItems_eq {as bs : List Literal}
    (each : ∀ a ∈ as, ∀ b, a.same b = true → a.hashCode = b.hashCode)
    (h : sameItems as bs = true) (done : UInt64) : hashItems done as = hashItems done bs := by
  induction as generalizing bs done with
  | nil => cases bs <;> simp_all [sameItems]
  | cons a as ih =>
    cases bs with
    | nil => simp [sameItems] at h
    | cons b bs =>
      simp only [sameItems, Bool.and_eq_true, List.forall_mem_cons] at h each
      rw [hashItems, hashItems, each.1 b h.1, ih each.2 h.2]

theorem hashCode_eq_of_same (a b : Literal) (h : a.same b = true) : a.hashCode = b.hashCode := by
  match a with
  | .integer _ | .text _ => cases b <;> simp_all [same]
  | .float _ =>
    cases b <;> simp_all only [same, hashCode, Bool.false_eq_true]
    rw [Binary64.placeHash_eq_of_same h]
  | .list as =>
    cases b <;> simp_all only [same, hashCode, Bool.false_eq_true]
    exact hashItems_eq (fun a _ b => hashCode_eq_of_same a b) h _
termination_by sizeOf a
decreasing_by
  simp only [list.sizeOf_spec]
  have := List.sizeOf_lt_of_mem ‹a ∈ as›
  omega

instance : LawfulHashable Literal where
  hash_eq a b h := hashCode_eq_of_same a b h

end Horn.Literal
