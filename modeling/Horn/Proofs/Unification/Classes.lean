import Mathlib.Logic.Relation
import Horn.Proofs.Unification.MostGeneral

/-!
Unification decides what the classes of facing arguments allow.

Arguments that face each other are tied together, and so are all occurrences of one variable; the
places that are tied, directly or through others, form a class. Two facts of one predicate unify if
and only if no class holds two literals that differ and the literals of a class satisfy the conditions
at its variables, and the bindings follow the classes. All of this is read off the values that facts
can take: a class with a literal can take that value only, and one without can take any.
-/

set_option autoImplicit false
set_option relaxedAutoImplicit false

namespace Horn

/-- An argument place of one of two facts that face each other. -/
inductive Place where
  | head (position : Nat)
  | goal (position : Nat)
  deriving DecidableEq, Repr

namespace Place

def atom? (head goal : Fact) : Place → Option Atom
  | .head i => head.args[i]?
  | .goal i => goal.args[i]?

/-- Places that face each other or hold the same variable. -/
inductive Tied (head goal : Fact) : Place → Place → Prop
  | facing (position : Nat) : Tied head goal (.head position) (.goal position)
  | shared {p q : Place} {v w : Variable} (left : p.atom? head goal = some (.var v))
      (right : q.atom? head goal = some (.var w)) (name : v.name = w.name) : Tied head goal p q

/-- Places that are tied directly or through others. -/
def SameClass (head goal : Fact) : Place → Place → Prop :=
  Relation.EqvGen (Tied head goal)

end Place

open Place (SameClass)

variable {head goal : Fact} {b : Bindings} {p q : Place}

/-- No class holds two literals that differ. -/
def IsConsistent (head goal : Fact) : Prop :=
  ∀ p q, SameClass head goal p q → ∀ u v, p.atom? head goal = some (.lit u) →
    q.atom? head goal = some (.lit v) → (u == v) = true

/-- A literal of a class satisfies every condition that is written at a variable of the class. -/
def IsAdmissible (head goal : Fact) : Prop :=
  ∀ p q, SameClass head goal p q → ∀ u v c, p.atom? head goal = some (.lit u) →
    q.atom? head goal = some (.var v) → v.condition = some c → c.holds u = true

/-- No literal stands in the class of a place. -/
def IsOpen (head goal : Fact) (p : Place) : Prop :=
  ∀ q, SameClass head goal p q → ∀ u, q.atom? head goal ≠ some (.lit u)

/-- Bindings take the variables of a class to its literal, or else all to one variable of the class. -/
structure Bindings.FollowsClasses (b : Bindings) (head goal : Fact) : Prop where
  literal : ∀ p q, SameClass head goal p q → ∀ u v, p.atom? head goal = some (.lit u) →
    q.atom? head goal = some (.var v) → ∃ w, b.resolve (.var v.name) = .lit w ∧ (w == u) = true
  free : ∀ p v, p.atom? head goal = some (.var v) → IsOpen head goal p →
    ∃ q w, SameClass head goal p q ∧ q.atom? head goal = some (.var w) ∧
      ∀ r x, SameClass head goal p r → r.atom? head goal = some (.var x) →
        b.resolve (.var x.name) = .var w.name

/-! ### Values at places -/

/-- The value at a place, of whatever kind where the place is past the end. -/
private def valueAt (head goal : Fact) (θ : Valuation) (p : Place) : Literal :=
  ((p.atom? head goal).map (Atom.value θ)).getD default

private theorem valueAt_eq {θ : Valuation} {a : Atom} (atom : p.atom? head goal = some a) :
    valueAt head goal θ p = a.value θ := by
  rw [valueAt, atom]
  rfl

private theorem getD_beq {us vs : List Literal} (h : (us == vs) = true) (i : Nat) :
    (us[i]?.getD default == vs[i]?.getD default) = true := by
  induction us generalizing vs i with
  | nil =>
    cases vs with
    | nil => exact BEq.rfl
    | cons v vs => simp at h
  | cons u us ih =>
    cases vs with
    | nil => simp at h
    | cons v vs =>
      rw [List.cons_beq_cons, Bool.and_eq_true] at h
      cases i with
      | zero => exact h.1
      | succ i => exact ih h.2 i

/-- If two facts have equal values, there is one value throughout a class. -/
private theorem valueAt_beq {θ : Valuation} (values : (head.values θ == goal.values θ) = true)
    (same : SameClass head goal p q) :
    (valueAt head goal θ p == valueAt head goal θ q) = true := by
  induction same with
  | refl p => exact BEq.rfl
  | symm p q _ ih => exact BEq.symm ih
  | trans p q r _ _ ihleft ihright => exact BEq.trans ihleft ihright
  | rel p q tied =>
    cases tied with
    | facing i =>
      have hplace := getD_beq values i
      rw [Fact.values, Fact.values, List.getElem?_map, List.getElem?_map] at hplace
      exact hplace
    | shared left right name =>
      rw [valueAt_eq left, valueAt_eq right]
      change (θ _ == θ _) = true
      rw [name]
      exact BEq.rfl

/-- Facts have equal values if all the places that face each other have. -/
private theorem values_beq_of_facing {θ : Valuation} (arity : head.arity = goal.arity)
    (facing : ∀ (i : Nat) (a c : Atom), head.args[i]? = some a → goal.args[i]? = some c →
      (a.value θ == c.value θ) = true) : (head.values θ == goal.values θ) = true := by
  obtain ⟨_, lefts⟩ := head
  obtain ⟨_, rights⟩ := goal
  change lefts.length = rights.length at arity
  change (lefts.map (Atom.value θ) == rights.map (Atom.value θ)) = true
  simp only at facing
  induction lefts generalizing rights with
  | nil =>
    obtain rfl : rights = [] := List.length_eq_zero_iff.1 arity.symm
    rfl
  | cons left lefts ih =>
    cases rights with
    | nil => simp at arity
    | cons right rights =>
      have hfirst := facing 0 left right rfl rfl
      have hrest := ih rights (fun i => facing (i + 1)) (by simpa using arity)
      rw [List.map_cons, List.map_cons, List.cons_beq_cons, hfirst, hrest]
      rfl

private theorem exists_literal_ne (value : Literal) : ∃ other : Literal, (other == value) = false := by
  cases h : (Literal.integer 0 == value) with
  | false => exact ⟨_, h⟩
  | true =>
    refine ⟨.integer 1, Bool.eq_false_iff.2 fun hone => ?_⟩
    have hsame : (Literal.integer 1 == Literal.integer 0) = true := BEq.trans hone (BEq.symm h)
    exact absurd hsame (by decide)

/-! ### Classes with a literal -/

private theorem exists_resolve_lit (args : (∅ : Bindings).unifyArgs head.args goal.args = some b)
    (arity : head.arity = goal.arity) (same : SameClass head goal p q) {u : Literal} {v : Variable}
    (left : p.atom? head goal = some (.lit u)) (right : q.atom? head goal = some (.var v)) :
    ∃ w, b.resolve (.var v.name) = .lit w ∧ (w == u) = true := by
  have hvalue : ∀ θ, (u == (b.resolve (.var v.name)).value θ) = true := by
    intro θ
    have hclass := valueAt_beq (Bindings.values_eq_of_unifyArgs args arity θ) same
    rwa [valueAt_eq left, valueAt_eq right] at hclass
  cases hresolve : b.resolve (.var v.name) with
  | lit w =>
    have hequal := hvalue (fun _ => default)
    rw [hresolve] at hequal
    exact ⟨w, rfl, BEq.symm hequal⟩
  | var y =>
    -- A variable could take any value, but the value of the class is settled.
    obtain ⟨other, hother⟩ := exists_literal_ne u
    have hequal := hvalue (fun _ => other)
    rw [hresolve, BEq.comm] at hequal
    exact absurd (hequal.symm.trans hother) (by simp)

private theorem isConsistent_of_unifyArgs
    (args : (∅ : Bindings).unifyArgs head.args goal.args = some b) (arity : head.arity = goal.arity) :
    IsConsistent head goal := by
  intro p q same u v left right
  have hclass := valueAt_beq (Bindings.values_eq_of_unifyArgs args arity fun _ => default) same
  rwa [valueAt_eq left, valueAt_eq right] at hclass

/-! ### Classes without a literal -/

/-- A variable of the class of a place. -/
private def Occurs (head goal : Fact) (p : Place) (name : VarName) : Prop :=
  ∃ q v, SameClass head goal p q ∧ q.atom? head goal = some (.var v) ∧ v.name = name

private theorem occurs_iff {v : Variable} (atom : q.atom? head goal = some (.var v)) :
    Occurs head goal p v.name ↔ SameClass head goal p q := by
  constructor
  · rintro ⟨r, w, hsame, hr, hname⟩
    exact hsame.trans _ _ _ (.rel _ _ (.shared hr atom hname))
  · intro hsame
    exact ⟨q, v, hsame, atom, rfl⟩

/-- An open class can be given any value while all other variables keep what the bindings make of them. -/
private theorem exists_values_of_isOpen
    (args : (∅ : Bindings).unifyArgs head.args goal.args = some b) (arity : head.arity = goal.arity)
    (isOpen : IsOpen head goal p) (value : Literal) : ∃ θ : Valuation,
      (head.values θ == goal.values θ) = true ∧
      (∀ name, Occurs head goal p name → θ name = value) ∧
        ∀ name, ¬ Occurs head goal p name → θ name = b.under (fun _ => default) name := by
  classical
  let η : Valuation := b.under fun _ => default
  let θ : Valuation := fun name => if Occurs head goal p name then value else η name
  have hinside (q : Place) (a : Atom) (same : SameClass head goal p q)
      (atom : q.atom? head goal = some a) : a.value θ = value := by
    cases a with
    | lit u => exact absurd atom (isOpen q same u)
    | var v => exact if_pos ((occurs_iff atom).2 same)
  have houtside (q : Place) (a : Atom) (other : ¬ SameClass head goal p q)
      (atom : q.atom? head goal = some a) : a.value θ = a.value η := by
    cases a with
    | lit u => rfl
    | var v => exact if_neg fun hoccurs => other ((occurs_iff atom).1 hoccurs)
  refine ⟨θ, values_beq_of_facing arity ?_, fun name h => if_pos h, fun name h => if_neg h⟩
  intro i a c left right
  have hfacing : SameClass head goal (.head i) (.goal i) := .rel _ _ (.facing i)
  by_cases hsame : SameClass head goal p (.head i)
  · rw [hinside (.head i) a hsame left, hinside (.goal i) c (hsame.trans _ _ _ hfacing) right]
    exact BEq.rfl
  · have hother : ¬ SameClass head goal p (.goal i) := by
      intro hgoal
      exact hsame (hgoal.trans _ _ _ hfacing.symm)
    rw [houtside (.head i) a hsame left, houtside (.goal i) c hother right]
    have hclass := valueAt_beq (Bindings.values_eq_of_unifyArgs args arity fun _ => default) hfacing
    rwa [valueAt_eq (p := .head i) left, valueAt_eq (p := .goal i) right] at hclass

/-- A variable of an open class is taken to a variable of the class. -/
private theorem exists_resolve_var (args : (∅ : Bindings).unifyArgs head.args goal.args = some b)
    (arity : head.arity = goal.arity) (isOpen : IsOpen head goal p) {name : VarName}
    (occurs : Occurs head goal p name) :
    ∃ y, b.resolve (.var name) = .var y ∧ Occurs head goal p y := by
  have hvalue : ∀ value, ∃ θ : Valuation, (value == (b.resolve (.var name)).value θ) = true ∧
      ∀ other, ¬ Occurs head goal p other → θ other = b.under (fun _ => default) other := by
    intro value
    obtain ⟨θ, hvalues, hinside, houtside⟩ := exists_values_of_isOpen args arity isOpen value
    refine ⟨θ, ?_, houtside⟩
    have hagree := Bindings.under_agree_of_unifyArgs args hvalues name
    rw [hinside name occurs] at hagree
    exact BEq.symm hagree
  cases hresolve : b.resolve (.var name) with
  | lit u =>
    obtain ⟨value, hne⟩ := exists_literal_ne u
    obtain ⟨θ, hequal, -⟩ := hvalue value
    rw [hresolve] at hequal
    exact absurd (hequal.symm.trans hne) (by simp)
  | var y =>
    refine ⟨y, rfl, Classical.byContradiction fun hother => ?_⟩
    obtain ⟨value, hne⟩ := exists_literal_ne (b.under (fun _ => default) y)
    obtain ⟨θ, hequal, houtside⟩ := hvalue value
    rw [hresolve, Term.value, houtside y hother] at hequal
    exact absurd (hequal.symm.trans hne) (by simp)

private theorem resolve_eq_of_sameClass
    (args : (∅ : Bindings).unifyArgs head.args goal.args = some b) (arity : head.arity = goal.arity)
    (same : SameClass head goal p q) {v w : Variable} (left : p.atom? head goal = some (.var v))
    (right : q.atom? head goal = some (.var w)) {x y : VarName}
    (hx : b.resolve (.var v.name) = .var x) (hy : b.resolve (.var w.name) = .var y) : x = y := by
  refine Classical.byContradiction fun hne => ?_
  -- Two variables that are left could take different values, but a class takes one.
  let θ : Valuation := Valuation.set (fun _ => .integer 0) x (.integer 1)
  have hclass := valueAt_beq (Bindings.values_eq_of_unifyArgs args arity θ) same
  rw [valueAt_eq left, valueAt_eq right] at hclass
  change ((b.resolve (.var v.name)).value θ == (b.resolve (.var w.name)).value θ) = true at hclass
  rw [hx, hy] at hclass
  have hvalues : ((Literal.integer 1) == Literal.integer 0) = true := by
    simpa [θ, Term.value, Valuation.set, Ne.symm hne] using hclass
  exact absurd hvalues (by decide)

theorem Bindings.followsClasses_of_unifyArgs
    (args : (∅ : Bindings).unifyArgs head.args goal.args = some b) (arity : head.arity = goal.arity) :
    b.FollowsClasses head goal := by
  constructor
  · intro p q same u v left right
    exact exists_resolve_lit args arity same left right
  · intro p v atom isOpen
    have hoccurs : Occurs head goal p v.name := ⟨p, v, .refl p, atom, rfl⟩
    obtain ⟨y, hy, q, w, hsame, hq, rfl⟩ := exists_resolve_var args arity isOpen hoccurs
    refine ⟨q, w, hsame, hq, fun r x hr hatom => ?_⟩
    obtain ⟨z, hz, -⟩ := exists_resolve_var args arity isOpen ⟨r, x, hr, hatom, rfl⟩
    rw [hz, resolve_eq_of_sameClass args arity hr atom hatom hy hz]

/-! ### When facts unify -/

/-- Argument lists unify if no class holds two literals that differ. -/
theorem IsConsistent.exists_unifyArgs (h : IsConsistent head goal) (arity : head.arity = goal.arity) :
    ∃ b, (∅ : Bindings).unifyArgs head.args goal.args = some b := by
  classical
  let Holds (name : VarName) (u : Literal) : Prop :=
    ∃ p q v, SameClass head goal p q ∧ p.atom? head goal = some (.var v) ∧ v.name = name ∧
      q.atom? head goal = some (.lit u)
  -- Every variable takes a literal of its class if there is one.
  let θ : Valuation := fun name => if holds : ∃ u, Holds name u then holds.choose else default
  have hvar (p : Place) (v : Variable) (atom : p.atom? head goal = some (.var v)) (q : Place)
      (u : Literal) (same : SameClass head goal p q) (lit : q.atom? head goal = some (.lit u)) :
      (θ v.name == u) = true := by
    have hex : ∃ u, Holds v.name u := ⟨u, p, q, v, same, atom, rfl, lit⟩
    have hθ : θ v.name = hex.choose := dif_pos hex
    obtain ⟨p', q', v', hsame, hp', hname, hq'⟩ := hex.choose_spec
    have hlink : SameClass head goal p' p := .rel _ _ (.shared hp' atom hname)
    rw [hθ]
    exact h q' q (hsame.symm.trans _ _ _ (hlink.trans _ _ _ same)) _ _ hq' lit
  have hnone (p : Place) (v : Variable) (atom : p.atom? head goal = some (.var v))
      (isOpen : IsOpen head goal p) : θ v.name = default := by
    refine dif_neg ?_
    rintro ⟨u, p', q, v', hsame, hp', hname, hq⟩
    have hlink : SameClass head goal p p' := .rel _ _ (.shared atom hp' hname.symm)
    exact isOpen q (hlink.trans _ _ _ hsame) u hq
  have hfacing : (head.values θ == goal.values θ) = true := by
    refine values_beq_of_facing arity fun i a c left right => ?_
    have hsame : SameClass head goal (.head i) (.goal i) := .rel _ _ (.facing i)
    by_cases hopen : IsOpen head goal (.head i)
    · have hgoal : IsOpen head goal (.goal i) := by
        intro q hq
        exact hopen q (hsame.trans _ _ _ hq)
      cases a with
      | lit u => exact absurd left (hopen _ (.refl _) u)
      | var v =>
        cases c with
        | lit u => exact absurd right (hgoal _ (.refl _) u)
        | var w =>
          change (θ v.name == θ w.name) = true
          rw [hnone (.head i) v left hopen, hnone (.goal i) w right hgoal]
          exact BEq.rfl
    · obtain ⟨q, hq, u, hlit⟩ : ∃ q, SameClass head goal (.head i) q ∧
          ∃ u, q.atom? head goal = some (.lit u) := by
        simpa [IsOpen] using hopen
      have hvalue (r : Place) (d : Atom) (same : SameClass head goal r q)
          (atom : r.atom? head goal = some d) : (d.value θ == u) = true := by
        cases d with
        | lit w => exact h r q same w u atom hlit
        | var w => exact hvar r w atom q u same hlit
      have hleft := hvalue (.head i) a hq left
      have hright := hvalue (.goal i) c (hsame.symm.trans _ _ _ hq) right
      exact BEq.trans hleft (BEq.symm hright)
  obtain ⟨b, hb, -⟩ := Bindings.exists_unifyArgs_of_values hfacing
  exact ⟨b, hb⟩

private theorem exists_place {f : Fact} (mem : f = head ∨ f = goal) {a : Atom} (arg : a ∈ f.args) :
    ∃ p : Place, p.atom? head goal = some a := by
  obtain ⟨i, hi⟩ := List.mem_iff_getElem?.1 arg
  rcases mem with rfl | rfl
  · exact ⟨.head i, hi⟩
  · exact ⟨.goal i, hi⟩

/-- Bindings that follow the classes respect the conditions at the places that receive a literal. -/
private theorem respects_of_isAdmissible (follows : b.FollowsClasses head goal)
    (admissible : IsAdmissible head goal) {f : Fact} (mem : f = head ∨ f = goal) :
    b.respects f = true := by
  refine List.all_eq_true.2 fun a ha => ?_
  obtain ⟨q, hq⟩ := exists_place mem ha
  cases a with
  | lit u => rfl
  | var v =>
    rw [Bindings.respectsAtom, Option.all_eq_true]
    intro c hc
    cases hresolve : b.resolve (.var v.name) with
    | var x => rfl
    | lit w =>
      by_cases hopen : IsOpen head goal q
      · obtain ⟨_, x, -, -, hall⟩ := follows.free q v hq hopen
        have hvar := hall q v (.refl q) hq
        rw [hresolve] at hvar
        cases hvar
      · obtain ⟨p, hp, u, hlit⟩ : ∃ p, SameClass head goal q p ∧
            ∃ u, p.atom? head goal = some (.lit u) := by
          simpa [IsOpen] using hopen
        obtain ⟨w', hw', hequal⟩ := follows.literal p q hp.symm u v hlit hq
        obtain rfl : w = w' := Term.lit.inj (hresolve.symm.trans hw')
        have hholds := admissible p q hp.symm u v c hlit hq hc
        rwa [← Condition.holds_congr (BEq.refl c) hequal] at hholds

private theorem isAdmissible_of_respects (follows : b.FollowsClasses head goal)
    (hhead : b.respects head = true) (hgoal : b.respects goal = true) : IsAdmissible head goal := by
  intro p q same u v c left right hc
  obtain ⟨w, hresolve, hequal⟩ := follows.literal p q same u v left right
  have hrespects : b.respectsAtom (.var v) = true := by
    cases q with
    | head i => exact List.all_eq_true.1 hhead _ (List.mem_of_getElem? right)
    | goal i => exact List.all_eq_true.1 hgoal _ (List.mem_of_getElem? right)
  rw [Bindings.respectsAtom, hresolve, Option.all_eq_true] at hrespects
  have hholds : c.holds w = true := hrespects c hc
  rwa [Condition.holds_congr (BEq.refl c) hequal] at hholds

/-- Facts unify if and only if the classes allow it. -/
theorem isSome_unify_iff (head goal : Fact) : (unify head goal).isSome = true ↔
    head.functor = goal.functor ∧ head.arity = goal.arity ∧ IsConsistent head goal ∧
      IsAdmissible head goal := by
  constructor
  · intro h
    obtain ⟨b, hb⟩ := Option.isSome_iff_exists.1 h
    obtain ⟨⟨hfunctor, harity⟩, hargs, hhead, hgoal⟩ := Bindings.unify_eq_some_iff.1 hb
    have hfollows := Bindings.followsClasses_of_unifyArgs hargs harity
    exact ⟨hfunctor, harity, isConsistent_of_unifyArgs hargs harity,
      isAdmissible_of_respects hfollows hhead hgoal⟩
  · rintro ⟨hfunctor, harity, hconsistent, hadmissible⟩
    obtain ⟨b, hargs⟩ := hconsistent.exists_unifyArgs harity
    have hfollows := Bindings.followsClasses_of_unifyArgs hargs harity
    have hhead := respects_of_isAdmissible hfollows hadmissible (.inl rfl)
    have hgoal := respects_of_isAdmissible hfollows hadmissible (.inr rfl)
    have hunify : unify head goal = some b :=
      Bindings.unify_eq_some_iff.2 ⟨⟨hfunctor, harity⟩, hargs, hhead, hgoal⟩
    rw [hunify]
    rfl

/-- Unification succeeds exactly where the classes of facing arguments allow it, and then its bindings
take the variables of a class to its literal, or all to one variable of the class. -/
theorem unify_follows_classes (head goal : Fact) :
    ((unify head goal).isSome = true ↔ head.functor = goal.functor ∧ head.arity = goal.arity ∧
      IsConsistent head goal ∧ IsAdmissible head goal) ∧
      ∀ b, unify head goal = some b → b.FollowsClasses head goal := by
  refine ⟨isSome_unify_iff head goal, fun b hb => ?_⟩
  obtain ⟨⟨-, harity⟩, hargs, -, -⟩ := Bindings.unify_eq_some_iff.1 hb
  exact Bindings.followsClasses_of_unifyArgs hargs harity

/-- `p(A, A, B, D, 7)` and `p(X, Y > 3, Y, Z, Z < 9)` unify: one class holds `A`, `B`, `X`, and `Y` and
is left open, the other one holds `D` and `Z` and receives the literal. -/
theorem unify_follows_classes_linked :
    let free := fun name => Atom.var ⟨.named name, none⟩
    let above := Atom.var ⟨.named "Y", some ⟨.gt, .integer 3⟩⟩
    let below := Atom.var ⟨.named "Z", some ⟨.lt, .integer 9⟩⟩
    let head : Fact := ⟨"p", [free "A", free "A", free "B", free "D", .lit (.integer 7)]⟩
    let goal : Fact := ⟨"p", [free "X", above, free "Y", free "Z", below]⟩
    let b : Bindings := ⟨[⟨.named "Z", .lit (.integer 7)⟩, ⟨.named "D", .var (.named "Z")⟩,
      ⟨.named "B", .var (.named "Y")⟩, ⟨.named "X", .var (.named "Y")⟩,
      ⟨.named "A", .var (.named "X")⟩]⟩
    unify head goal = some b ∧ b.FollowsClasses head goal :=
  ⟨rfl, (unify_follows_classes _ _).2 _ rfl⟩

end Horn
