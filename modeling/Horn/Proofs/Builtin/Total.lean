import Horn.Proofs.Builtin.Evaluation
import Mathlib.Algebra.BigOperators.Group.List.Lemmas
import Mathlib.Algebra.BigOperators.Ring.List
import Mathlib.Algebra.Order.BigOperators.Group.List
import Mathlib.Algebra.Order.Ring.Int
import Mathlib.Data.List.Infix

/-!
Sums and products of many integers.

Operands are combined one after the other, and each result on the way has to be a word again. Main
statement: there is a value if the totals of all fronts of the operands are words, and then it is the
exact total. So another order of the operands never gives another value, but it may give none; where no
front can come to more than all operands do, the order is of no account.
-/

set_option autoImplicit false
set_option relaxedAutoImplicit false

namespace Horn

/-- The total of integers if it is a word and the totals of all fronts are words too. -/
def totalByFronts? (total : List Int → Int) (values : List Int) : Option Int64 :=
  if ∀ front ∈ values.inits, (int64? (total front)).isSome then int64? (total values) else none

/-- A total is that of one operand less, combined with the last operand. -/
structure IsTotal (combine : Int → Int → Int) (total : List Int → Int) : Prop where
  nil : (int64? (total [])).isSome
  singleton : ∀ n, total [n] = n
  concat : ∀ front n, total (front ++ [n]) = combine (total front) n

theorem isTotal_sum : IsTotal (· + ·) List.sum where
  nil := rfl
  singleton := by simp
  concat := by simp

theorem isTotal_prod : IsTotal (· * ·) List.prod where
  nil := rfl
  singleton := by simp
  concat := by simp

section Fronts

variable {total : List Int → Int} {values : List Int} {w : Int64}

theorem isSome_int64? {n : Int} (low : -2 ^ 63 ≤ n) (high : n < 2 ^ 63) : (int64? n).isSome := by
  unfold int64?
  rw [if_pos (by omega)]
  rfl

theorem toInt_of_totalByFronts? (h : totalByFronts? total values = some w) : w.toInt = total values := by
  unfold totalByFronts? at h
  exact int64?_eq_some_iff.1 (Option.ite_none_right_eq_some.1 h).2

/-- If a total that is a word has no front whose total is none, only the whole total counts. -/
theorem totalByFronts?_eq_int64?
    (fits : (int64? (total values)).isSome → ∀ front, front <+: values → (int64? (total front)).isSome) :
    totalByFronts? total values = int64? (total values) := by
  unfold totalByFronts?
  split
  · rfl
  · rename_i hfronts
    cases hwhole : int64? (total values) with
    | none => rfl
    | some w =>
      refine absurd ?_ hfronts
      intro front hfront
      exact fits (Option.isSome_iff_exists.2 ⟨w, hwhole⟩) front ((List.mem_inits _ _).1 hfront)

/-- One operand more is combined with the total so far, if there is one. -/
theorem IsTotal.totalByFronts?_concat {combine : Int → Int → Int} (h : IsTotal combine total)
    (values : List Int) (n : Int) :
    totalByFronts? total (values ++ [n]) =
      (totalByFronts? total values).bind fun w => int64? (combine w.toInt n) := by
  have hfronts : (∀ front ∈ (values ++ [n]).inits, (int64? (total front)).isSome) ↔
      (int64? (total (values ++ [n]))).isSome ∧
        ∀ front ∈ values.inits, (int64? (total front)).isSome := by
    simp only [List.mem_inits, List.prefix_concat_iff, forall_eq_or_imp]
  unfold totalByFronts?
  rw [if_congr hfronts rfl rfl]
  by_cases hvalues : ∀ front ∈ values.inits, (int64? (total front)).isSome
  · have hwhole : (int64? (total values)).isSome :=
      hvalues values ((List.mem_inits _ _).2 List.prefix_rfl)
    obtain ⟨w, hw⟩ := Option.isSome_iff_exists.1 hwhole
    rw [if_pos hvalues, hw, Option.bind_some, int64?_eq_some_iff.1 hw, ← h.concat]
    cases htotal : int64? (total (values ++ [n])) with
    | none => simp
    | some _ => simp only [Option.isSome_some, true_and, if_pos hvalues]
  · rw [if_neg hvalues, if_neg fun both => hvalues both.2, Option.bind_none]

/-- Operands that are combined from the left come to their total by fronts. -/
theorem IsTotal.foldlM_eq {combine : Int → Int → Int} (h : IsTotal combine total) (first : Int64)
    (rest : List Int64) :
    rest.foldlM (fun a b => int64? (combine a.toInt b.toInt)) first =
      totalByFronts? total ((first :: rest).map Int64.toInt) := by
  induction rest using List.reverseRecOn with
  | nil =>
    have hfirst : int64? (total [first.toInt]) = some first :=
      int64?_eq_some_iff.2 (h.singleton _).symm
    have hfits : totalByFronts? total [first.toInt] = int64? (total [first.toInt]) := by
      apply totalByFronts?_eq_int64?
      intro hwhole front hfront
      rcases List.prefix_cons_iff.1 hfront with rfl | ⟨tail, rfl, htail⟩
      · exact h.nil
      · rwa [List.prefix_nil.1 htail]
    exact hfirst.symm.trans hfits.symm
  | append_singleton rest last ih =>
    have hmap : (first :: (rest ++ [last])).map Int64.toInt =
        (first :: rest).map Int64.toInt ++ [last.toInt] := by simp
    rw [List.foldlM_append, ih, hmap, h.totalByFronts?_concat]
    simp

/-- Two operands have no fronts between that could be too large. -/
theorem IsTotal.totalByFronts?_two {combine : Int → Int → Int} (h : IsTotal combine total)
    (a b : Int64) :
    totalByFronts? total ([a, b].map Int64.toInt) = int64? (total ([a, b].map Int64.toInt)) := by
  have htotal : total ([a, b].map Int64.toInt) = combine a.toInt b.toInt := by
    rw [List.map_cons, List.map_singleton, ← List.singleton_append, h.concat, h.singleton]
  rw [← h.foldlM_eq, htotal]
  simp

end Fronts

/-! ### Orders of which nothing depends -/

/-- A condition on integers under which only their whole total can leave the words, for a total that no
order changes. -/
structure Settles (total : List Int → Int) (settled : List Int → Prop) : Prop where
  total_perm : ∀ {values others}, others.Perm values → total others = total values
  perm : ∀ {values others}, settled values → others.Perm values → settled others
  isSome_front : ∀ {values front}, settled values → (int64? (total values)).isSome → front <+: values →
    (int64? (total front)).isSome

/-- Integers among which there are not both positive and negative ones. -/
def OneSign (values : List Int) : Prop :=
  (∀ n ∈ values, 0 ≤ n) ∨ ∀ n ∈ values, n ≤ 0

/-- Integers whose product neither vanishes nor is the least word. -/
def LargeProduct (values : List Int) : Prop :=
  0 ∉ values ∧ values.prod ≠ -2 ^ 63

private theorem sum_nonpos {values : List Int} (h : ∀ n ∈ values, n ≤ 0) : values.sum ≤ 0 :=
  (List.sum_le_card_nsmul values 0 h).trans_eq (nsmul_zero _)

/-- The sums of the integers in front and of those behind have the same sign, so the sum of the front lies
between zero and the whole sum. -/
theorem settles_sum : Settles List.sum OneSign where
  total_perm perm := perm.sum_eq
  perm := by
    intro values others h perm
    rcases h with h | h
    · exact .inl fun n hn => h n (perm.mem_iff.1 hn)
    · exact .inr fun n hn => h n (perm.mem_iff.1 hn)
  isSome_front := by
    intro values front sign whole hfront
    obtain ⟨w, hw⟩ := Option.isSome_iff_exists.1 whole
    have hsum := int64?_eq_some_iff.1 hw
    obtain ⟨behind, rfl⟩ := hfront
    rw [List.sum_append] at hsum
    have hbetween : 0 ≤ front.sum ∧ 0 ≤ behind.sum ∨ front.sum ≤ 0 ∧ behind.sum ≤ 0 := by
      rcases sign with hsign | hsign
      · left
        constructor
        · exact List.sum_nonneg fun n hn => hsign n (List.mem_append_left _ hn)
        · exact List.sum_nonneg fun n hn => hsign n (List.mem_append_right _ hn)
      · right
        constructor
        · exact sum_nonpos fun n hn => hsign n (List.mem_append_left _ hn)
        · exact sum_nonpos fun n hn => hsign n (List.mem_append_right _ hn)
    have hlow := w.le_toInt
    have hhigh := w.toInt_lt
    exact isSome_int64? (by omega) (by omega)

/-- The product of a front divides the whole product, so it is not larger in size. -/
theorem settles_prod : Settles List.prod LargeProduct where
  total_perm perm := perm.prod_eq
  perm := by
    rintro values others ⟨hzero, hleast⟩ perm
    exact ⟨fun h => hzero (perm.mem_iff.1 h), perm.prod_eq ▸ hleast⟩
  isSome_front := by
    rintro values front ⟨hzero, hleast⟩ whole hfront
    obtain ⟨w, hw⟩ := Option.isSome_iff_exists.1 whole
    have hprod := int64?_eq_some_iff.1 hw
    have hpositive : 0 < values.prod.natAbs := Int.natAbs_pos.2 (List.prod_ne_zero hzero)
    have hsize : front.prod.natAbs ≤ values.prod.natAbs :=
      Nat.le_of_dvd hpositive (Int.natAbs_dvd_natAbs.2 hfront.sublist.prod_dvd_prod)
    have hlow := w.le_toInt
    have hhigh := w.toInt_lt
    exact isSome_int64? (by omega) (by omega)

namespace Builtin

/-- What the order of operands does to a built-in that combines them from the left. -/
structure TotalsFromLeft (total : List Int → Int) (settled : List Int → Prop)
    (value : List Int64 → Option Literal) (operands : List Int64) : Prop where
  /-- There is a value if no total on the way leaves the words, and it is the exact total. -/
  value_eq : value operands = (totalByFronts? total (operands.map Int64.toInt)).map .integer
  /-- Two orders that have values have the same value. -/
  agrees : ∀ order, order.Perm operands → ∀ v w, value operands = some v → value order = some w → v = w
  /-- Two operands, or settled ones, have the exact total in every order if it is a word at all. -/
  exact : operands.length = 2 ∨ settled (operands.map Int64.toInt) →
    ∀ order, order.Perm operands →
      value order = (int64? (total (operands.map Int64.toInt))).map .integer

/-- Words that are combined by a built-in on numbers are combined as integers. -/
private theorem onNumbers_combine (combine : Int → Int → Int) (onFloats : Float → Float → Float)
    (first : Int64) (rest : List Int64) :
    onNumbers
        (foldNumbers (Number.combine (fun a b => int64? (combine a.toInt b.toInt)) onFloats))
        ((first :: rest).map .integer) =
      (rest.foldlM (fun a b => int64? (combine a.toInt b.toInt)) first).map .integer := by
  have hnumbers : ∀ operands : List Int64,
      (operands.map Literal.integer).mapM Number.ofLiteral? = some (operands.map Number.int) := by
    intro operands
    induction operands with
    | nil => rfl
    | cons a operands ih => simp [List.mapM_cons, ih, Number.ofLiteral?]
  have hfold : (rest.map Number.int).foldlM
      (Number.combine (fun a b => int64? (combine a.toInt b.toInt)) onFloats) (.int first) =
      (rest.foldlM (fun a b => int64? (combine a.toInt b.toInt)) first).map .int := by
    induction rest generalizing first with
    | nil => rfl
    | cons a rest ih =>
      rw [List.map_cons, List.foldlM_cons, List.foldlM_cons, Number.combine]
      cases hword : int64? (combine first.toInt a.toInt) with
      | none => rfl
      | some w => exact ih w
  show ((((first :: rest).map Literal.integer).mapM Number.ofLiteral?).bind _).map Number.toLiteral = _
  rw [hnumbers, Option.bind_some, List.map_cons, foldNumbers, hfold, Option.map_map]
  rfl

/-- A built-in that comes to the total by fronts, in every order of the operands. -/
private theorem totalsFromLeft_of_value_eq {combine : Int → Int → Int} {total : List Int → Int}
    {settled : List Int → Prop} {value : List Int64 → Option Literal} {operands : List Int64}
    (isTotal : IsTotal combine total) (settles : Settles total settled)
    (h : ∀ order, order.Perm operands →
      value order = (totalByFronts? total (order.map Int64.toInt)).map .integer) :
    TotalsFromLeft total settled value operands where
  value_eq := h operands (.refl _)
  agrees := by
    intro order perm v w hv hw
    rw [h operands (.refl _)] at hv
    rw [h order perm] at hw
    obtain ⟨v', hv', rfl⟩ := Option.map_eq_some_iff.1 hv
    obtain ⟨w', hw', rfl⟩ := Option.map_eq_some_iff.1 hw
    have htotal : v'.toInt = w'.toInt := by
      rw [toInt_of_totalByFronts? hv', toInt_of_totalByFronts? hw']
      exact (settles.total_perm (perm.map _)).symm
    rw [Int64.toInt_inj.1 htotal]
  exact := by
    intro certain order perm
    rw [h order perm, ← settles.total_perm (perm.map Int64.toInt)]
    rcases certain with htwo | hsettled
    · obtain ⟨a, b, rfl⟩ := List.length_eq_two.1 (perm.length_eq.trans htwo)
      rw [isTotal.totalByFronts?_two]
    · rw [totalByFronts?_eq_int64?]
      intro whole front hfront
      exact settles.isSome_front (settles.perm hsettled (perm.map _)) whole hfront

private theorem totalsFromLeft_of_action {combine : Int → Int → Int} {total : List Int → Int}
    {settled : List Int → Prop} {onFloats : Float → Float → Float} {r : Registry} {name : String}
    {operands : List Int64} (ambient : Ambient) (isTotal : IsTotal combine total)
    (settles : Settles total settled) (nonempty : operands ≠ [])
    (found : r.action? name operands.length = some (.compute (onNumbers
      (foldNumbers (Number.combine (fun a b => int64? (combine a.toInt b.toInt)) onFloats))))) :
    TotalsFromLeft total settled (fun order => (r.evaluate name (order.map .integer) ambient).1)
      operands := by
  apply totalsFromLeft_of_value_eq isTotal settles
  intro order perm
  cases order with
  | nil => exact absurd perm.symm.eq_nil nonempty
  | cons first rest =>
    have hlength : ((first :: rest).map Literal.integer).length = operands.length := by
      rw [List.length_map, perm.length_eq]
    rw [← isTotal.foldlM_eq, Registry.evaluate_integer ambient (hlength ▸ found)
      (onNumbers_combine combine onFloats first rest)]

/-- Integers are added and multiplied from the left, and every result on the way has to be a word; so a
value is the exact sum or product, and no other order of the operands has another value. Sums of integers
of one sign and products that are neither zero nor the least word have a value in every order or in none.
The sum of a list of integers is like that of operands, and zero for the empty list. -/
theorem totals_from_left (r : Registry) (ambient : Ambient) (operands : List Int64) :
    (r.contains "add" (operands.length + 1) = true →
        TotalsFromLeft List.sum OneSign
          (fun order => (r.evaluate "add" (order.map .integer) ambient).1) operands) ∧
      (r.contains "mul" (operands.length + 1) = true →
        TotalsFromLeft List.prod LargeProduct
          (fun order => (r.evaluate "mul" (order.map .integer) ambient).1) operands) ∧
      TotalsFromLeft List.sum OneSign
        (fun order => (r.evaluate "sum" [.list (order.map .integer)] ambient).1) operands := by
  have harity : ∀ {name : String} {action : Action},
      (r.hasArity ⟨name, .variadic 3, action⟩ (operands.length + 1)) = true → operands ≠ [] := by
    rintro name action h rfl
    have hlow : 3 ≤ 0 + 1 := of_decide_eq_true (Bool.and_eq_true_iff.1 h).1
    omega
  refine ⟨?_, ?_, ?_⟩
  · intro registered
    exact totalsFromLeft_of_action ambient isTotal_sum settles_sum (harity registered)
      (Registry.action?_of_find? rfl registered)
  · intro registered
    exact totalsFromLeft_of_action ambient isTotal_prod settles_prod (harity registered)
      (Registry.action?_of_find? rfl registered)
  · apply totalsFromLeft_of_value_eq isTotal_sum settles_sum
    intro order perm
    have hsum : sum [.list (order.map .integer)] =
        (totalByFronts? List.sum (order.map Int64.toInt)).map .integer := by
      cases order with
      | nil => rfl
      | cons first rest =>
        rw [← isTotal_sum.foldlM_eq]
        exact onNumbers_combine (· + ·) (· + ·) first rest
    rw [Registry.evaluate_integer ambient rfl hsum]

/-- The greatest word, minus one and one: the total goes down before it goes up. -/
theorem totals_from_left_greatest :
    (Registry.mk 8).contains "add" 4 = true ∧
      ((Registry.mk 8).evaluate "add" [.integer Int64.maxValue, .integer (-1), .integer 1] default).1 =
        some (.integer Int64.maxValue) := by
  have hregistered : (Registry.mk 8).contains "add" 4 = true := by decide
  have htotals := (totals_from_left ⟨8⟩ default [Int64.maxValue, -1, 1]).1 hregistered
  have hvalue : totalByFronts? List.sum ([Int64.maxValue, -1, 1].map Int64.toInt) =
      some Int64.maxValue := by decide +kernel
  exact ⟨hregistered, htotals.value_eq.trans (by rw [hvalue]; rfl)⟩

/-- The greatest word, one and minus one: the exact sum is a word, but the total on the way is none. -/
theorem not_forall_exact_sum :
    ¬∀ (r : Registry) (ambient : Ambient) (operands : List Int64),
      r.contains "add" (operands.length + 1) = true →
        r.evaluate "add" (operands.map .integer) ambient =
          ((int64? (operands.map Int64.toInt).sum).map .integer, ambient) := by
  intro h
  have hsum := congrArg (·.1.isSome) (h ⟨8⟩ default [Int64.maxValue, 1, -1] (by decide))
  exact absurd hsum (by decide +kernel)

end Builtin

end Horn
