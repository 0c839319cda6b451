import Horn.Proofs.Builtin.Evaluation
import Horn.Proofs.Literal.Order
import Mathlib.Data.List.Perm.Subperm

/-!
The extremes of literals without doubles.

Each element is compared with the furthest one so far and with no other. Main statement: there is a value
if every front of the sequence has a furthest element, and the value is the furthest element of all. So two
orders of the elements that have values have the same one; but only if all elements can be compared has
every order a value.
-/

set_option autoImplicit false
set_option relaxedAutoImplicit false

namespace Horn.Builtin

open Literal (FloatFree)

variable {direction : Ordering} {a b c m n : Literal} {items others : List Literal}

/-- A literal can be compared with another one and does not lie further in a direction. -/
def Within (direction : Ordering) (a b : Literal) : Prop :=
  ∃ order, a.compare? b = some order ∧ order ≠ direction

/-- An element with which every element can be compared and that none beats in a direction. -/
def IsFurthest (direction : Ordering) (m : Literal) (items : List Literal) : Prop :=
  m ∈ items ∧ ∀ a ∈ items, Within direction a m

/-! ### The order in a direction -/

/-- In either direction the literals without doubles are in order. -/
theorem exists_isPartialComparison (isDirection : direction ≠ .eq) :
    ∃ compare? : FloatFree → FloatFree → Option Ordering, IsPartialComparison compare? ∧
      ∀ a b : FloatFree, Within direction a.1 b.1 ↔ AtMost compare? a b := by
  cases direction with
  | lt =>
    refine ⟨fun a b => b.compare? a, FloatFree.isPartialComparison.flip, fun a b => ?_⟩
    show Within .lt a.1 b.1 ↔ b.1.compare? a.1 = some .lt ∨ b.1.compare? a.1 = some .eq
    unfold Within
    rw [Literal.compare?_swap a.1 b.1 a.2 b.2]
    cases a.1.compare? b.1 with
    | none => simp
    | some order => cases order <;> simp
  | eq => exact absurd rfl isDirection
  | gt =>
    refine ⟨FloatFree.compare?, FloatFree.isPartialComparison, fun a b => ?_⟩
    show Within .gt a.1 b.1 ↔ a.1.compare? b.1 = some .lt ∨ a.1.compare? b.1 = some .eq
    unfold Within
    cases a.1.compare? b.1 with
    | none => simp
    | some order => cases order <;> simp

theorem within_self (isDirection : direction ≠ .eq) (ha : hasFloat a = false) : Within direction a a :=
  ⟨.eq, (Literal.compare?_eq_some_eq_iff a a ha ha).2 rfl, isDirection.symm⟩

theorem Within.trans (isDirection : direction ≠ .eq) (ha : hasFloat a = false) (hb : hasFloat b = false)
    (hc : hasFloat c = false) (hab : Within direction a b) (hbc : Within direction b c) :
    Within direction a c := by
  obtain ⟨_, h, hwithin⟩ := exists_isPartialComparison isDirection
  have hab' := (hwithin ⟨a, ha⟩ ⟨b, hb⟩).1 hab
  have hbc' := (hwithin ⟨b, hb⟩ ⟨c, hc⟩).1 hbc
  exact (hwithin ⟨a, ha⟩ ⟨c, hc⟩).2 (h.atMost_trans hab' hbc')

theorem Within.antisymm (isDirection : direction ≠ .eq) (ha : hasFloat a = false) (hb : hasFloat b = false)
    (hab : Within direction a b) (hba : Within direction b a) : a = b := by
  obtain ⟨_, h, hwithin⟩ := exists_isPartialComparison isDirection
  have hab' := (hwithin ⟨a, ha⟩ ⟨b, hb⟩).1 hab
  have hba' := (hwithin ⟨b, hb⟩ ⟨a, ha⟩).1 hba
  exact congrArg Subtype.val (h.atMost_antisymm hab' hba')

/-- What is beaten lies within what beats it. -/
theorem within_of_compare? (isDirection : direction ≠ .eq) (ha : hasFloat a = false)
    (hb : hasFloat b = false) (h : a.compare? b = some direction) : Within direction b a := by
  refine ⟨direction.swap, ?_, ?_⟩
  · rw [Literal.compare?_swap a b ha hb, h]
    rfl
  · cases direction with
    | lt => decide
    | eq => exact absurd rfl isDirection
    | gt => decide

/-! ### Furthest elements -/

theorem IsFurthest.perm (h : IsFurthest direction m items) (perm : others.Perm items) :
    IsFurthest direction m others :=
  ⟨perm.mem_iff.2 h.1, fun a ha => h.2 a (perm.mem_iff.1 ha)⟩

theorem IsFurthest.unique (isDirection : direction ≠ .eq) (floatFree : haveFloat items = false)
    (hm : IsFurthest direction m items) (hn : IsFurthest direction n items) : m = n := by
  rw [Literal.haveFloat_eq_false_iff] at floatFree
  exact (hn.2 m hm.1).antisymm isDirection (floatFree m hm.1) (floatFree n hn.1) (hm.2 n hn.1)

theorem isFurthest_singleton (isDirection : direction ≠ .eq) (ha : hasFloat a = false) :
    IsFurthest direction a [a] := by
  refine ⟨List.mem_singleton_self a, ?_⟩
  intro b hb
  rw [List.mem_singleton.1 hb]
  exact within_self isDirection ha

/-- A new element that can be compared with the furthest one so far is the furthest if it beats that one,
and changes nothing otherwise. -/
theorem IsFurthest.cons {order : Ordering} (isDirection : direction ≠ .eq)
    (floatFree : haveFloat (a :: items) = false) (h : IsFurthest direction m items)
    (answer : a.compare? m = some order) :
    IsFurthest direction (if order == direction then a else m) (a :: items) := by
  obtain ⟨ha, hitems⟩ := Literal.haveFloat_cons floatFree
  rw [Literal.haveFloat_eq_false_iff] at hitems
  by_cases hbeats : order = direction
  · rw [if_pos (beq_iff_eq.2 hbeats)]
    have hma := within_of_compare? isDirection ha (hitems m h.1) (hbeats ▸ answer)
    refine ⟨List.mem_cons_self, List.forall_mem_cons.2 ⟨within_self isDirection ha, ?_⟩⟩
    intro b hb
    exact (h.2 b hb).trans isDirection (hitems b hb) (hitems m h.1) ha hma
  · rw [if_neg (mt beq_iff_eq.1 hbeats)]
    exact ⟨List.mem_cons_of_mem a h.1, List.forall_mem_cons.2 ⟨⟨order, answer, hbeats⟩, h.2⟩⟩

/-- With the furthest element of all but one the last one can be compared, if there is a furthest one
of all. -/
theorem IsFurthest.isSome (isDirection : direction ≠ .eq) (floatFree : haveFloat (a :: items) = false)
    (hm : IsFurthest direction m items) (hn : IsFurthest direction n (a :: items)) :
    (a.compare? m).isSome := by
  obtain ⟨ha, hitems⟩ := Literal.haveFloat_cons floatFree
  rw [Literal.haveFloat_eq_false_iff] at hitems
  have hmn := hn.2 m (List.mem_cons_of_mem a hm.1)
  rcases List.mem_cons.1 hn.1 with rfl | hmem
  · obtain ⟨order, hanswer, -⟩ := hmn
    rw [Literal.compare?_swap m n (hitems m hm.1) ha, hanswer]
    rfl
  · have hsame := (hm.2 n hmem).antisymm isDirection (hitems n hmem) (hitems m hm.1) hmn
    obtain ⟨order, hanswer, -⟩ := hn.2 a List.mem_cons_self
    rw [← hsame, hanswer]
    rfl

theorem exists_isFurthest (isDirection : direction ≠ .eq) (floatFree : haveFloat items = false)
    (nonempty : items ≠ []) (answers : ∀ a ∈ items, ∀ b ∈ items, (a.compare? b).isSome) :
    ∃ m, IsFurthest direction m items := by
  induction items with
  | nil => exact absurd rfl nonempty
  | cons a items ih =>
    obtain ⟨ha, hitems⟩ := Literal.haveFloat_cons floatFree
    cases items with
    | nil => exact ⟨a, isFurthest_singleton isDirection ha⟩
    | cons b rest =>
      have hrest : ∀ x ∈ b :: rest, ∀ y ∈ b :: rest, (x.compare? y).isSome := fun x hx y hy =>
        answers x (List.mem_cons_of_mem a hx) y (List.mem_cons_of_mem a hy)
      obtain ⟨m, hm⟩ := ih hitems (List.cons_ne_nil b rest) hrest
      obtain ⟨order, hanswer⟩ := Option.isSome_iff_exists.1
        (answers a List.mem_cons_self m (List.mem_cons_of_mem a hm.1))
      exact ⟨_, hm.cons isDirection floatFree hanswer⟩

/-! ### Going through the elements -/

/-- The furthest of a front leads to the furthest of all, past fronts that each have a furthest one. -/
theorem extremeFrom_eq_some_iff {front rest : List Literal} (isDirection : direction ≠ .eq)
    (floatFree : haveFloat (front ++ rest) = false) (h : IsFurthest direction m front) :
    extremeFrom direction m rest = some n ↔ IsFurthest direction n (front ++ rest) ∧
      ∀ longer, front <+: longer → longer <+: front ++ rest → ∃ best, IsFurthest direction best longer := by
  induction rest generalizing front m with
  | nil =>
    rw [List.append_nil] at floatFree ⊢
    rw [extremeFrom, Option.some_inj]
    constructor
    · rintro rfl
      refine ⟨h, ?_⟩
      intro longer hfront hlonger
      rw [hlonger.eq_of_length_le hfront.length_le]
      exact ⟨m, h⟩
    · rintro ⟨hn, -⟩
      exact h.unique isDirection floatFree hn
  | cons a rest ih =>
    rw [List.append_cons] at floatFree ⊢
    have hstep : (front ++ [a]).Perm (a :: front) := List.perm_append_singleton a front
    have hfree : haveFloat (a :: front) = false :=
      Literal.haveFloat_of_subset floatFree fun _ hb => List.mem_append_left rest (hstep.mem_iff.2 hb)
    unfold extremeFrom
    cases hanswer : a.compare? m with
    | none =>
      refine iff_of_false nofun ?_
      rintro ⟨-, hfronts⟩
      obtain ⟨best, hbest⟩ := hfronts (front ++ [a]) (List.prefix_append _ _) (List.prefix_append _ _)
      have hsome := h.isSome isDirection hfree (hbest.perm hstep.symm)
      rw [hanswer] at hsome
      cases hsome
    | some order =>
      dsimp only
      rw [ih floatFree ((h.cons isDirection hfree hanswer).perm hstep)]
      refine and_congr_right fun _ => ⟨?_, ?_⟩
      · intro hfronts longer hfront hlonger
        obtain ⟨behind, rfl⟩ := hfront
        cases behind with
        | nil =>
          rw [List.append_nil]
          exact ⟨m, h⟩
        | cons b behind =>
          rw [← List.append_cons, List.prefix_append_right_inj, List.cons_prefix_cons] at hlonger
          obtain ⟨rfl, hbehind⟩ := hlonger
          rw [List.append_cons]
          exact hfronts _ (List.prefix_append _ _) ((List.prefix_append_right_inj _).2 hbehind)
      · intro hfronts longer hfront hlonger
        exact hfronts longer ((List.prefix_append _ _).trans hfront) hlonger

theorem extreme_eq_some_iff (isDirection : direction ≠ .eq) (floatFree : haveFloat items = false) :
    extreme direction items = some m ↔ IsFurthest direction m items ∧
      ∀ front, front ≠ [] → front <+: items → ∃ best, IsFurthest direction best front := by
  cases items with
  | nil =>
    refine iff_of_false nofun ?_
    rintro ⟨⟨hmem, -⟩, -⟩
    cases hmem
  | cons first rest =>
    have hfirst := isFurthest_singleton isDirection (Literal.haveFloat_cons floatFree).1
    rw [extreme, extremeFrom_eq_some_iff isDirection floatFree hfirst, List.singleton_append]
    refine and_congr_right fun _ => ⟨?_, ?_⟩
    · intro hfronts front nonempty hfront
      obtain ⟨b, behind, rfl⟩ := List.exists_cons_of_ne_nil nonempty
      obtain ⟨rfl, -⟩ := List.cons_prefix_cons.1 hfront
      exact hfronts _ (List.cons_prefix_cons.2 ⟨rfl, List.nil_prefix⟩) hfront
    · rintro hfronts longer ⟨behind, rfl⟩ hlonger
      exact hfronts _ (List.cons_ne_nil _ _) hlonger

/-! ### Any order -/

/-- What the order of values does to a built-in that picks the furthest one. -/
structure ExtremeByFronts (direction : Ordering) (value : List Literal → Option Literal)
    (values : List Literal) : Prop where
  /-- There is a value if every front has a furthest element, and it is the furthest of all. -/
  value_iff : ∀ order, order.Perm values → ∀ m, value order = some m ↔ IsFurthest direction m values ∧
    ∀ front, front ≠ [] → front <+: order → ∃ best, IsFurthest direction best front
  /-- Two orders that have values have the same value. -/
  agrees : ∀ order other, order.Perm values → other.Perm values →
    ∀ v w, value order = some v → value other = some w → v = w
  /-- Every order has a value exactly if all values can be compared. -/
  always_iff : (∀ order, order.Perm values → (value order).isSome) ↔
    ∀ a ∈ values, ∀ b ∈ values, (a.compare? b).isSome
  /-- Some order has a value exactly if there is a furthest one. -/
  ever_iff : (∃ order, order.Perm values ∧ (value order).isSome) ↔ ∃ m, IsFurthest direction m values

private theorem isSome_compare?_of_fronts {values : List Literal} (isDirection : direction ≠ .eq)
    (floatFree : haveFloat values = false) (ha : a ∈ values) (hb : b ∈ values)
    (hfronts : ∀ order, order.Perm values → ∀ front, front ≠ [] → front <+: order →
      ∃ best, IsFurthest direction best front) : (a.compare? b).isSome := by
  have hfloats := Literal.haveFloat_eq_false_iff.1 floatFree
  by_cases hab : a = b
  · rw [(Literal.compare?_eq_some_eq_iff a b (hfloats a ha) (hfloats b hb)).2 hab]
    rfl
  · -- An order that begins with the two elements has a front of just these.
    have hsubset : [a, b] ⊆ values := List.cons_subset.2 ⟨ha, List.cons_subset.2 ⟨hb, List.nil_subset _⟩⟩
    have hnodup : [a, b].Nodup := by simp [hab]
    obtain ⟨pair, hpair, hsub⟩ := List.subperm_of_subset hnodup hsubset
    obtain ⟨rest, hrest⟩ := hsub.exists_perm_append
    have hperm : ([a, b] ++ rest).Perm values := (hpair.symm.append_right rest).trans hrest.symm
    obtain ⟨best, hbest⟩ := hfronts _ hperm [a, b] (List.cons_ne_nil _ _) (List.prefix_append _ _)
    have hpairFree := Literal.haveFloat_of_subset floatFree hsubset
    exact (isFurthest_singleton isDirection (hfloats b hb)).isSome isDirection hpairFree hbest

/-- What is furthest of all is furthest of every front of an order that begins with it. -/
private theorem exists_order_of_isFurthest {values : List Literal} (h : IsFurthest direction m values) :
    ∃ order, order.Perm values ∧
      ∀ front, front ≠ [] → front <+: order → ∃ best, IsFurthest direction best front := by
  obtain ⟨before, behind, rfl⟩ := List.append_of_mem h.1
  have hperm : (m :: (before ++ behind)).Perm (before ++ m :: behind) := List.perm_middle.symm
  refine ⟨m :: (before ++ behind), hperm, ?_⟩
  intro front nonempty hfront
  obtain ⟨b, rest, rfl⟩ := List.exists_cons_of_ne_nil nonempty
  obtain ⟨rfl, -⟩ := List.cons_prefix_cons.1 hfront
  exact ⟨b, List.mem_cons_self, fun a ha => h.2 a (hperm.mem_iff.1 (hfront.subset ha))⟩

private theorem extremeByFronts_of_value_eq {value : List Literal → Option Literal} {values : List Literal}
    (isDirection : direction ≠ .eq) (floatFree : haveFloat values = false) (nonempty : values ≠ [])
    (h : ∀ order, order.Perm values → value order = extreme direction order) :
    ExtremeByFronts direction value values := by
  have hvalue : ∀ order, order.Perm values → ∀ m, value order = some m ↔
      IsFurthest direction m values ∧
        ∀ front, front ≠ [] → front <+: order → ∃ best, IsFurthest direction best front := by
    intro order perm m
    rw [h order perm, extreme_eq_some_iff isDirection (Literal.haveFloat_of_subset floatFree perm.subset)]
    exact and_congr_left fun _ => ⟨fun hm => hm.perm perm.symm, fun hm => hm.perm perm⟩
  refine ⟨hvalue, ?_, ?_, ?_⟩
  · intro order other perm perm' v w hv hw
    rw [hvalue order perm] at hv
    rw [hvalue other perm'] at hw
    exact hv.1.unique isDirection floatFree hw.1
  · constructor
    · intro always a ha b hb
      apply isSome_compare?_of_fronts isDirection floatFree ha hb
      intro order perm
      obtain ⟨m, hm⟩ := Option.isSome_iff_exists.1 (always order perm)
      exact ((hvalue order perm m).1 hm).2
    · intro answers order perm
      obtain ⟨m, hm⟩ := exists_isFurthest isDirection floatFree nonempty answers
      rw [(hvalue order perm m).2 ⟨hm, ?_⟩]
      · rfl
      · intro front hnonempty hfront
        have hsubset : front ⊆ values := List.Subset.trans hfront.subset perm.subset
        exact exists_isFurthest isDirection (Literal.haveFloat_of_subset floatFree hsubset) hnonempty
          fun a ha b hb => answers a (hsubset ha) b (hsubset hb)
  · constructor
    · rintro ⟨order, perm, hsome⟩
      obtain ⟨m, hm⟩ := Option.isSome_iff_exists.1 hsome
      exact ⟨m, ((hvalue order perm m).1 hm).1⟩
    · rintro ⟨m, hm⟩
      obtain ⟨order, perm, hfronts⟩ := exists_order_of_isFurthest hm
      refine ⟨order, perm, ?_⟩
      rw [(hvalue order perm m).2 ⟨hm, hfronts⟩]
      rfl

/-- The built-ins that pick an extreme, with the direction in which they look. -/
inductive Picks : String → Ordering → Prop where
  | max : Picks "max" .gt
  | min : Picks "min" .lt

theorem Picks.isDirection {name : String} (picks : Picks name direction) : direction ≠ .eq := by
  cases picks <;> decide

theorem extremeOf_eq_extreme {inputs : List Literal} (two : 2 ≤ inputs.length) :
    extremeOf direction inputs = extreme direction inputs := by
  match inputs with
  | [] => rfl
  | [_] => exact absurd two (Nat.lt_irrefl 1)
  | first :: _ :: _ => cases first <;> rfl

/-- The extreme of values is the furthest one of all in every order that has a value, whether they are the
inputs or the elements of a list. Such an order is one in which every front has a furthest element; that
is so in every order exactly if all values can be compared. -/
theorem extreme_by_fronts (r : Registry) (ambient : Ambient) {name : String} (picks : Picks name direction)
    {values : List Literal} (floatFree : haveFloat values = false) (nonempty : values ≠ []) :
    ExtremeByFronts direction (fun order => (r.evaluate name [.list order] ambient).1) values ∧
      (2 ≤ values.length → r.contains name (values.length + 1) = true →
        ExtremeByFronts direction (fun order => (r.evaluate name order ambient).1) values) := by
  have hevaluate : ∀ inputs order, order.Perm values →
      r.action? name inputs.length = some (.compute (extremeOf direction)) →
        extremeOf direction inputs = extreme direction order →
          (r.evaluate name inputs ambient).1 = extreme direction order := by
    intro inputs order perm found heq
    have hfree := Literal.haveFloat_of_subset floatFree perm.subset
    rw [Registry.evaluate_floatFree ambient found, heq]
    intro value hvalue
    rw [heq, extreme_eq_some_iff picks.isDirection hfree] at hvalue
    exact Literal.haveFloat_eq_false_iff.1 hfree value hvalue.1.1
  have hfind : r.find? name = some ⟨name, .variadic 2, .compute (extremeOf direction)⟩ := by
    cases picks <;> rfl
  constructor
  · apply extremeByFronts_of_value_eq picks.isDirection floatFree nonempty
    intro order perm
    have harity : r.hasArity ⟨name, .variadic 2, .compute (extremeOf direction)⟩ 2 = true := by
      simp [Registry.hasArity, Arities.low, Arities.high]
    exact hevaluate [.list order] order perm (Registry.action?_of_find? hfind harity) rfl
  · intro two registered
    apply extremeByFronts_of_value_eq picks.isDirection floatFree nonempty
    intro order perm
    have harity : r.hasArity ⟨name, .variadic 2, .compute (extremeOf direction)⟩ (order.length + 1) =
        true := by
      rw [Registry.contains, hfind] at registered
      rw [perm.length_eq]
      exact registered
    exact hevaluate order order perm (Registry.action?_of_find? hfind harity)
      (extremeOf_eq_extreme (perm.length_eq ▸ two))

/-- Two lists cannot be compared, but the third one lies behind both: the order decides whether there is
a greatest one, and not which one. -/
theorem extreme_by_fronts_forked :
    (haveFloat Literal.forked = false ∧ Literal.forked ≠ []) ∧
      ∀ order, order.Perm Literal.forked →
        ∀ value, ((Registry.mk 8).evaluate "max" [.list order] default).1 = some value →
          value = .list [.integer 2] := by
  have floatFree : haveFloat Literal.forked = false := rfl
  have nonempty : Literal.forked ≠ [] := List.cons_ne_nil _ _
  refine ⟨⟨floatFree, nonempty⟩, ?_⟩
  intro order perm value hvalue
  obtain ⟨hextreme, -⟩ := extreme_by_fronts ⟨8⟩ default .max floatFree nonempty
  exact hextreme.agrees order _ perm (.refl _) value (.list [.integer 2]) hvalue rfl

/-- The greatest one comes between the others in the one order, and behind them in the other. -/
theorem not_forall_extreme_perm :
    ¬∀ (r : Registry) (ambient : Ambient) (values order : List Literal),
      haveFloat values = false → values ≠ [] → order.Perm values →
        r.evaluate "max" [.list order] ambient = r.evaluate "max" [.list values] ambient := by
  intro h
  have perm : [.list [.integer 1, .text "a"], .list [.integer 1, .integer 2], .list [.integer 2]].Perm
      Literal.forked := .cons _ (.swap _ _ _)
  have hsame := congrArg (·.1.isSome) (h ⟨8⟩ default Literal.forked _ rfl (List.cons_ne_nil _ _) perm)
  exact absurd hsame (by decide +kernel)

end Horn.Builtin
