import Horn.Distinct

/-!
What `distinct` keeps of a list.

Every element is represented by an equal one, no two elements that are kept are equal, and nothing
is added. An element that comes last is dropped if and only if an equal one came before it.
-/

set_option autoImplicit false
set_option relaxedAutoImplicit false

namespace Horn

variable {α : Type} [BEq α] [Hashable α] [EquivBEq α] [LawfulHashable α]

private theorem mem_of_mem_eraseDups {α : Type} [BEq α] {a : α} {items : List α}
    (h : a ∈ items.eraseDups) : a ∈ items := by
  induction hn : items.length using Nat.strongRecOn generalizing items with
  | ind n ih =>
    cases items with
    | nil => simp at h
    | cons b rest =>
      rw [List.eraseDups_cons, List.mem_cons] at h
      rcases h with rfl | h
      · exact List.mem_cons_self
      · have hlt : (rest.filter fun c => !c == b).length < n := by
          have := List.length_filter_le (fun c => !c == b) rest
          simp only [List.length_cons] at hn
          omega
        exact List.mem_cons_of_mem b (List.mem_filter.1 (ih _ hlt h rfl)).1

/-- Nothing is added. -/
theorem mem_of_mem_distinct {a : α} {items : List α} (h : a ∈ distinct items) : a ∈ items := by
  rw [distinct_eq_eraseDups] at h
  exact mem_of_mem_eraseDups h

/-- No two elements that are kept are equal. -/
theorem pairwise_distinct (items : List α) :
    (distinct items).Pairwise fun a b => (a == b) = false := by
  rw [distinct_eq_eraseDups]
  induction hn : items.length using Nat.strongRecOn generalizing items with
  | ind n ih =>
    cases items with
    | nil => simp
    | cons b rest =>
      have hlt : (rest.filter fun c => !c == b).length < n := by
        have := List.length_filter_le (fun c => !c == b) rest
        simp only [List.length_cons] at hn
        omega
      rw [List.eraseDups_cons, List.pairwise_cons]
      refine ⟨fun c hc => ?_, ih _ hlt _ rfl⟩
      have hother := (List.mem_filter.1 (mem_of_mem_eraseDups hc)).2
      rw [BEq.comm]
      simpa using hother

/-- Every element is represented by an equal one. -/
theorem exists_mem_distinct {a : α} {items : List α} (h : a ∈ items) :
    ∃ b ∈ distinct items, (b == a) = true := by
  rw [distinct_eq_eraseDups]
  induction hn : items.length using Nat.strongRecOn generalizing items with
  | ind n ih =>
    cases items with
    | nil => simp at h
    | cons b rest =>
      rw [List.eraseDups_cons]
      rcases List.mem_cons.1 h with rfl | hrest
      · exact ⟨a, List.mem_cons_self, BEq.rfl⟩
      · by_cases hb : (a == b) = true
        · exact ⟨b, List.mem_cons_self, BEq.symm hb⟩
        · have hlt : (rest.filter fun c => !c == b).length < n := by
            have := List.length_filter_le (fun c => !c == b) rest
            simp only [List.length_cons] at hn
            omega
          have hkept : a ∈ rest.filter fun c => !c == b :=
            List.mem_filter.2 ⟨hrest, by simpa using hb⟩
          obtain ⟨c, hc, heq⟩ := ih _ hlt hkept rfl
          exact ⟨c, List.mem_cons_of_mem b hc, heq⟩

/-- Nothing is dropped where no two elements are equal. -/
theorem eraseDups_eq_self {α : Type} [BEq α] [EquivBEq α] {items : List α}
    (h : items.Pairwise fun a b => (a == b) = false) : items.eraseDups = items := by
  induction items with
  | nil => rfl
  | cons a rest ih =>
    rw [List.pairwise_cons] at h
    have hkept : rest.filter (fun b => !b == a) = rest := by
      refine List.filter_eq_self.2 fun b hb => ?_
      rw [BEq.comm, h.1 b hb]
      rfl
    rw [List.eraseDups_cons, hkept, ih h.2]

private theorem loop_append_singleton {α : Type} [BEq α] [EquivBEq α] (items done : List α) (a : α) :
    List.eraseDupsBy.loop (· == ·) (items ++ [a]) done =
      if done.any (a == ·) || items.any (a == ·) then List.eraseDupsBy.loop (· == ·) items done
      else List.eraseDupsBy.loop (· == ·) items done ++ [a] := by
  induction items generalizing done with
  | nil =>
    rw [List.nil_append, List.eraseDupsBy.loop]
    cases hmet : done.any (a == ·) <;> simp [List.eraseDupsBy.loop, hmet]
  | cons b rest ih =>
    rw [List.cons_append, List.eraseDupsBy.loop, List.eraseDupsBy.loop]
    cases hmet : done.any (b == ·) with
    | true =>
      simp only [ih, List.any_cons]
      by_cases hab : (a == b) = true
      · have hsame : done.any (a == ·) = true := by
          obtain ⟨c, hc, hbc⟩ := List.any_eq_true.1 hmet
          exact List.any_eq_true.2 ⟨c, hc, BEq.trans hab hbc⟩
        simp [hsame]
      · simp [hab]
    | false => simp only [ih, List.any_cons, Bool.or_assoc, Bool.or_left_comm]

/-- A last element is kept if no equal one came before it. -/
theorem distinct_append_singleton (items : List α) (a : α) :
    distinct (items ++ [a]) = if items.any (a == ·) then distinct items else distinct items ++ [a] := by
  rw [distinct_eq_eraseDups, distinct_eq_eraseDups]
  exact loop_append_singleton items [] a

end Horn
