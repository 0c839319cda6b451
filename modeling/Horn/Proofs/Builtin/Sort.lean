import Horn.Proofs.Builtin.Evaluation
import Horn.Proofs.Literal.Order
import Horn.Proofs.Sorting.Plan
import Mathlib.Data.List.Chain
import Mathlib.Data.List.Perm.Basic

/-!
Sorting literals without doubles.

Main statement: a list is sorted, unless two of its elements cannot be compared, and then it is refused;
so the order in which the elements came is of no account. Every stable sort does the same that asks how
elements compare and refuses a list as soon as it gets no answer: none can do with the answers for other
pairs.
-/

set_option autoImplicit false
set_option relaxedAutoImplicit false

namespace Horn

section Merging

variable {α : Type} {compare? : α → α → Option Ordering}

/-- Elements that can all be compared are merged in order. -/
theorem IsPartialComparison.pairwise_mergeSort (h : IsPartialComparison compare?) {items : List α}
    (answers : ∀ a ∈ items, ∀ b ∈ items, (compare? a b).isSome) :
    (items.mergeSort fun a b => compare? a b != some .gt).Pairwise (AtMost compare?) := by
  obtain ⟨total, hcompletes⟩ := h.exists_completes
  have := hcompletes.trans
  have hle : ∀ a ∈ items, ∀ b ∈ items, (compare? a b != some .gt) = (total a b).isLE := by
    intro a ha b hb
    obtain ⟨order, horder⟩ := Option.isSome_iff_exists.1 (answers a ha b hb)
    rw [hcompletes.agrees horder, horder]
    cases order <;> rfl
  have hmerge : items.mergeSort (fun a b => compare? a b != some .gt) =
      items.mergeSort fun a b => (total a b).isLE := by
    have hmap := List.map_mergeSort (s := fun a b => (total a b).isLE) (f := id) hle
    rwa [List.map_id, List.map_id] at hmap
  have hpairwise : (items.mergeSort fun a b => (total a b).isLE).Pairwise fun a b => (total a b).isLE :=
    List.pairwise_mergeSort (fun _ _ _ => Std.TransCmp.isLE_trans) isLE_or_isLE items
  rw [hmerge]
  refine hpairwise.imp_of_mem ?_
  intro a b ha hb hab
  have hperm := List.mergeSort_perm items fun a b => (total a b).isLE
  exact hcompletes.atMost (answers a (hperm.mem_iff.1 ha) b (hperm.mem_iff.1 hb)) hab

end Merging

namespace Builtin

open Literal (FloatFree)
open Sorting (StableSort)

theorem isAscending_iff {items : List Literal} :
    isAscending items = true ↔ items.IsChain (AtMost Literal.compare?) := by
  induction items with
  | nil => simp [isAscending]
  | cons a rest ih =>
    cases rest with
    | nil => simp [isAscending]
    | cons b rest =>
      have hadjacent : (a.compare? b).any (· != .gt) = true ↔ AtMost Literal.compare? a b := by
        rw [AtMost]
        cases a.compare? b with
        | none => simp
        | some order => cases order <;> simp
      rw [isAscending, Bool.and_eq_true, hadjacent, ih, List.isChain_cons_cons]

/-- Literals without doubles that do not descend are in order. -/
theorem isAscending_map_iff {free : List FloatFree} :
    isAscending (free.map Subtype.val) = true ↔ free.Pairwise (AtMost FloatFree.compare?) := by
  have : IsTrans FloatFree (AtMost FloatFree.compare?) :=
    ⟨fun _ _ _ => FloatFree.isPartialComparison.atMost_trans⟩
  rw [isAscending_iff, List.isChain_map]
  show free.IsChain (AtMost FloatFree.compare?) ↔ _
  exact List.isChain_iff_pairwise

theorem exists_arranged {free : List FloatFree} {sorted : List Literal}
    (floatFree : haveFloat (free.map Subtype.val) = false) (perm : sorted.Perm (free.map Subtype.val))
    (ordered : sorted.Pairwise (AtMost Literal.compare?)) :
    ∃ arranged : List FloatFree, arranged.map Subtype.val = sorted ∧ arranged.Perm free ∧
      arranged.Pairwise (AtMost FloatFree.compare?) := by
  obtain ⟨arranged, rfl⟩ := Literal.exists_floatFree (Literal.haveFloat_of_subset floatFree perm.subset)
  refine ⟨arranged, rfl, (List.map_perm_map_iff Subtype.val_injective).1 perm, ?_⟩
  rwa [List.pairwise_map] at ordered

/-- A sorted list is the only arrangement of the elements in which each one is at most all behind it. -/
theorem sorted?_eq_some_iff {items sorted : List Literal} (floatFree : haveFloat items = false) :
    sorted? items = some sorted ↔ sorted.Perm items ∧ sorted.Pairwise (AtMost Literal.compare?) := by
  obtain ⟨free, rfl⟩ := Literal.exists_floatFree floatFree
  let merged := free.mergeSort fun a b => a.compare? b != some .gt
  have hperm : merged.Perm free := List.mergeSort_perm _ _
  have hmerge : (free.map Subtype.val).mergeSort (fun a b => a.compare? b != some .gt) =
      merged.map Subtype.val := by
    symm
    apply List.map_mergeSort
    intro a _ b _
    rfl
  rw [sorted?, if_neg (by rw [floatFree]; decide)]
  dsimp only
  rw [hmerge, Option.ite_none_right_eq_some, isAscending_map_iff]
  constructor
  · rintro ⟨hsorted, hitems⟩
    rw [← Option.some.inj hitems]
    exact ⟨hperm.map _, List.pairwise_map.2 hsorted⟩
  · rintro ⟨perm, ordered⟩
    obtain ⟨arranged, rfl, harranged, hpairwise⟩ := exists_arranged floatFree perm ordered
    have hmerged : merged.Pairwise (AtMost FloatFree.compare?) := by
      apply FloatFree.isPartialComparison.pairwise_mergeSort
      intro a ha b hb
      exact FloatFree.isPartialComparison.isSome_of_pairwise hpairwise a (harranged.mem_iff.2 ha) b
        (harranged.mem_iff.2 hb)
    refine ⟨hmerged, congrArg some (congrArg _ ?_)⟩
    exact (hperm.trans harranged.symm).eq_of_pairwise
      (fun _ _ _ _ => FloatFree.isPartialComparison.atMost_antisymm) hmerged hpairwise

/-- Only what cannot be compared cannot be sorted. -/
theorem sorted?_eq_none_iff {items : List Literal} (floatFree : haveFloat items = false) :
    sorted? items = none ↔ ∃ a ∈ items, ∃ b ∈ items, a.compare? b = none := by
  obtain ⟨free, rfl⟩ := Literal.exists_floatFree floatFree
  constructor
  · intro hnone
    by_contra hall
    have hanswers : ∀ a ∈ free, ∀ b ∈ free, (a.compare? b).isSome := by
      intro a ha b hb
      rw [Option.isSome_iff_ne_none]
      intro hab
      exact hall ⟨a, List.mem_map_of_mem ha, b, List.mem_map_of_mem hb, hab⟩
    have hsome := (sorted?_eq_some_iff floatFree).2
      ⟨(List.mergeSort_perm free fun a b => a.compare? b != some .gt).map _,
        List.pairwise_map.2 (FloatFree.isPartialComparison.pairwise_mergeSort hanswers)⟩
    rw [hnone] at hsome
    cases hsome
  · rintro ⟨_, ha, _, hb, hab⟩
    rw [Option.eq_none_iff_forall_ne_some]
    intro sorted hsorted
    obtain ⟨perm, ordered⟩ := (sorted?_eq_some_iff floatFree).1 hsorted
    obtain ⟨arranged, rfl, harranged, hpairwise⟩ := exists_arranged floatFree perm ordered
    obtain ⟨a, hafree, rfl⟩ := List.mem_map.1 ha
    obtain ⟨b, hbfree, rfl⟩ := List.mem_map.1 hb
    have hanswer := FloatFree.isPartialComparison.isSome_of_pairwise hpairwise a
      (harranged.mem_iff.2 hafree) b (harranged.mem_iff.2 hbfree)
    rw [FloatFree.compare?, hab] at hanswer
    cases hanswer

theorem sorted?_perm {items others : List Literal} (floatFree : haveFloat items = false)
    (perm : others.Perm items) : sorted? others = sorted? items := by
  ext sorted
  rw [sorted?_eq_some_iff (Literal.haveFloat_of_subset floatFree perm.subset), sorted?_eq_some_iff floatFree]
  exact and_congr_left fun _ => ⟨fun h => h.trans perm, fun h => h.trans perm.symm⟩

/-! ### Sorting by any stable sort -/

/-- The elements of one family as a stable sort arranges them by their comparisons, unless one of those
has no answer. -/
def sortedBy? (sorter : StableSort) (items : List Literal) : Option (List Literal) :=
  if items.all fun item => items.head?.all item.sameFamily then
    let attempt := (sorter.plan items.length).attempt fun i j => (items.get i).compare? (items.get j)
    if attempt.1 then some (attempt.2.map items.get) else none
  else none

theorem sameFamily_of_isSome {a b : Literal} (h : (a.compare? b).isSome) : a.sameFamily b = true := by
  cases a <;> cases b <;> first | rfl | cases h

theorem sortedBy?_eq_sorted? (sorter : StableSort) {items : List Literal}
    (floatFree : haveFloat items = false) : sortedBy? sorter items = sorted? items := by
  let values (i : Fin items.length) : FloatFree :=
    ⟨items.get i, Literal.haveFloat_eq_false_iff.1 floatFree _ (List.get_mem _ _)⟩
  let attempt := (sorter.plan items.length).attempt fun i j => (values i).compare? (values j)
  show (if _ then if attempt.1 then some (attempt.2.map items.get) else none else none) = _
  by_cases complete : attempt.1 = true
  · have hanswers := sorter.comparable_of_complete FloatFree.isPartialComparison complete
    have hfamily : (items.all fun item => items.head?.all item.sameFamily) = true := by
      rw [List.all_eq_true]
      intro item hitem
      obtain ⟨i, rfl⟩ := List.get_of_mem hitem
      cases hhead : items.head? with
      | none => rfl
      | some first =>
        obtain ⟨j, rfl⟩ := List.get_of_mem (List.mem_of_mem_head? hhead)
        exact sameFamily_of_isSome (hanswers i j)
    have hperm : (attempt.2.map items.get).Perm items := by
      obtain ⟨total, hcompletes⟩ := FloatFree.isPartialComparison.exists_completes
      have harranged := (sorter.stable_of_complete complete hcompletes).1.map items.get
      rwa [List.map_get_finRange] at harranged
    have hordered := sorter.pairwise_of_complete FloatFree.isPartialComparison complete
    rw [List.pairwise_map] at hordered
    rw [if_pos hfamily, if_pos complete]
    exact ((sorted?_eq_some_iff floatFree).2 ⟨hperm, List.pairwise_map.2 hordered⟩).symm
  · rw [if_neg complete, ite_self]
    symm
    rw [sorted?_eq_none_iff floatFree]
    by_contra hall
    refine complete ((sorter.complete_iff FloatFree.isPartialComparison).2 fun i j => ?_)
    rw [Option.isSome_iff_ne_none]
    intro hij
    exact hall ⟨_, List.get_mem _ i, _, List.get_mem _ j, hij⟩

/-- A list is sorted or refused, whatever the order of its elements: refused if two of them cannot be
compared, and otherwise arranged so that each one is at most all behind it. A stable sort of any kind,
which refuses the list when it gets no answer, comes to the same. -/
theorem sort_sorts_or_refuses (r : Registry) (ambient : Ambient) {items : List Literal}
    (floatFree : haveFloat items = false) :
    ((r.evaluate "sort" [.list items] ambient).1 = none ↔ ∃ a ∈ items, ∃ b ∈ items, a.compare? b = none) ∧
      (∀ value, (r.evaluate "sort" [.list items] ambient).1 = some value →
        ∃ sorted, value = .list sorted ∧ sorted.Perm items ∧ sorted.Pairwise (AtMost Literal.compare?)) ∧
      (∀ others, others.Perm items →
        r.evaluate "sort" [.list others] ambient = r.evaluate "sort" [.list items] ambient) ∧
      ∀ sorter, r.evaluate "sort" [.list items] ambient = ((sortedBy? sorter items).map .list, ambient) := by
  have hevaluate : ∀ others, others.Perm items →
      r.evaluate "sort" [.list others] ambient = ((sorted? items).map .list, ambient) := by
    intro others perm
    have hfound : r.action? "sort" [Literal.list others].length = some (.compute sort) := rfl
    rw [← sorted?_perm floatFree perm]
    refine Registry.evaluate_floatFree ambient hfound ?_
    intro value hvalue
    obtain ⟨sorted, hsorted, rfl⟩ := Option.map_eq_some_iff.1 hvalue
    rw [sorted?_perm floatFree perm, sorted?_eq_some_iff floatFree] at hsorted
    exact Literal.haveFloat_of_subset floatFree hsorted.1.subset
  refine ⟨?_, ?_, ?_, ?_⟩
  · rw [hevaluate items (.refl _), ← sorted?_eq_none_iff floatFree, Option.map_eq_none_iff]
  · intro value hvalue
    rw [hevaluate items (.refl _)] at hvalue
    obtain ⟨sorted, hsorted, rfl⟩ := Option.map_eq_some_iff.1 hvalue
    exact ⟨sorted, rfl, (sorted?_eq_some_iff floatFree).1 hsorted⟩
  · intro others perm
    rw [hevaluate others perm, hevaluate items (.refl _)]
  · intro sorter
    rw [hevaluate items (.refl _), sortedBy?_eq_sorted? sorter floatFree]

/-- Two lists cannot be compared, and both can be with the third one: refused in every order, also by the
sort that asks for every pair. -/
theorem sort_sorts_or_refuses_forked :
    haveFloat Literal.forked = false ∧
      (∀ others, others.Perm Literal.forked →
        ((Registry.mk 8).evaluate "sort" [.list others] default).1 = none) ∧
      sortedBy? Sorting.askingSort Literal.forked = none := by
  have floatFree : haveFloat Literal.forked = false := rfl
  obtain ⟨hrefused, -, hperm, hsorter⟩ := sort_sorts_or_refuses ⟨8⟩ default floatFree
  have hnone := hrefused.2 ⟨.list [.integer 1, .text "a"], by simp [Literal.forked],
    .list [.integer 1, .integer 2], by simp [Literal.forked],
    by simp [Literal.compare?, Literal.compareItems?]⟩
  refine ⟨floatFree, ?_, ?_⟩
  · intro others perm
    rw [hperm others perm, hnone]
  · simpa only [hsorter Sorting.askingSort, Option.map_eq_none_iff] using hnone

end Builtin

end Horn
