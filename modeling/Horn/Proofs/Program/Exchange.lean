import Mathlib.Data.List.Perm.Basic
import Mathlib.Logic.Equiv.Basic
import Horn.Proofs.Program.Uniqueness

/-!
Which clauses are recognized in every order of their goals.

Goals of one shape are paired off in the order in which they are listed. So a clause is recognized
however its goals are listed if and only if it does not matter which one of two goals of the same shape
comes first: `Program.Reachable.counts_rearranged_iff`. It may matter where such goals share variables
that the head does not have.
-/

set_option autoImplicit false
set_option relaxedAutoImplicit false

namespace Horn

namespace Clause

variable {c : Clause}

/-- Two goals of the same shape can change places. -/
def IsExchangeable (c : Clause) : Prop :=
  ∀ i (hi : i < c.body.length), ∀ j (hj : j < c.body.length),
    sameShape c.headNames c.headNames c.body[i] c.body[j] = true →
      Fact.alikeAll c.facts (c.head :: c.body.swap i j) = true

private theorem perm_exchange {α : Type} (before between behind : List α) (x y : α) :
    (before ++ x :: (between ++ y :: behind)).Perm (before ++ y :: (between ++ x :: behind)) := by
  refine List.Perm.append_left before ?_
  calc (x :: (between ++ y :: behind)).Perm (x :: y :: (between ++ behind)) := List.perm_middle.cons x
    List.Perm _ (y :: x :: (between ++ behind)) := .swap y x _
    List.Perm _ (y :: (between ++ x :: behind)) := (List.perm_middle.cons y).symm

private theorem swap_append {α : Type} (before between behind : List α) (x y : α) :
    (before ++ x :: (between ++ y :: behind)).swap before.length (before.length + 1 + between.length) =
      before ++ y :: (between ++ x :: behind) := by
  induction before with
  | nil => simp [Nat.add_comm 1]
  | cons a before ih =>
    have hplace : (a :: before).length + 1 + between.length = before.length + 1 + between.length + 1 := by
      rw [List.length_cons]
      omega
    rw [hplace, List.length_cons, List.cons_append, List.swap_cons, ih, List.cons_append]

private theorem IsExchangeable.alikeAll (h : c.IsExchangeable) {before between behind : List Fact}
    {x y : Fact} (hbody : c.body = before ++ x :: (between ++ y :: behind))
    (hshape : shape c.headNames x = shape c.headNames y) :
    Fact.alikeAll c.facts (c.head :: (before ++ y :: (between ++ x :: behind))) = true := by
  have hlength : c.body.length = before.length + 1 + between.length + 1 + behind.length := by
    rw [hbody]
    simp
    omega
  have hi : before.length < c.body.length := by omega
  have hj : before.length + 1 + between.length < c.body.length := by omega
  have hx : c.body[before.length] = x := by
    simp [hbody]
  have hy : c.body[before.length + 1 + between.length] = y := by
    simp [hbody, Nat.add_assoc, Nat.add_comm 1]
  have hswap := h before.length hi (before.length + 1 + between.length) hj
    (by rw [hx, hy]; exact shape_eq_iff.1 hshape)
  rwa [hbody, swap_append] at hswap

/-- Facts at two places are exchanged in both of two sequences. -/
private theorem alikeAll_exchange {before before' between between' behind behind' : List Fact}
    {x x' y y' : Fact} (hbefore : before.length = before'.length)
    (hbetween : between.length = between'.length)
    (h : Fact.alikeAll (before ++ x :: (between ++ y :: behind))
      (before' ++ x' :: (between' ++ y' :: behind')) = true) :
    Fact.alikeAll (before ++ y :: (between ++ x :: behind))
      (before' ++ y' :: (between' ++ x' :: behind')) = true := by
  obtain ⟨m, hfacts⟩ := Fact.alikeAll_iff.1 h
  obtain ⟨hbeforeOf, hrest⟩ := Correspondence.forall₂_of_append hbefore hfacts
  obtain ⟨hx, hrest⟩ := List.forall₂_cons.1 hrest
  obtain ⟨hbetweenOf, hrest⟩ := Correspondence.forall₂_of_append hbetween hrest
  obtain ⟨hy, hbehindOf⟩ := List.forall₂_cons.1 hrest
  refine Fact.alikeAll_iff.2 ⟨m, List.rel_append hbeforeOf (.cons hy ?_)⟩
  exact List.rel_append hbetweenOf (.cons hx hbehindOf)

/-- Exchanging goals of one shape leads to every order that has the same shapes at the same places. The
induction is on the goals that are not yet known to be in place. -/
private theorem IsExchangeable.alikeAll_of_placed (h : c.IsExchangeable) {rest : List Fact} :
    ∀ {done goals : List Fact}, c.body = done ++ rest → goals.Perm rest →
      goals.map (shape c.headNames) = rest.map (shape c.headNames) →
        Fact.alikeAll c.facts (c.head :: (done ++ goals)) = true := by
  induction rest with
  | nil =>
    intro done goals hbody hperm _
    obtain rfl : goals = [] := hperm.eq_nil
    rw [← hbody]
    exact Fact.alikeAll_self _
  | cons x rest ih =>
    intro done goals hbody hperm hshapes
    obtain ⟨x', goals, rfl, hx, hshapes'⟩ := List.map_eq_cons_iff.1 hshapes
    have hbody' : c.body = (done ++ [x]) ++ rest := by
      rw [hbody, List.append_assoc, List.singleton_append]
    rcases List.mem_cons.1 (hperm.mem_iff.2 (List.mem_cons_self : x ∈ x :: rest)) with rfl | hmem
    · have halike := ih hbody' hperm.cons_inv hshapes'
      rwa [List.append_assoc, List.singleton_append] at halike
    · -- The goal that belongs here stands further behind. The order in which both are exchanged is
      -- alike by induction; there the goals at these two places are exchanged on both sides.
      obtain ⟨between, behind, rfl⟩ := List.append_of_mem hmem
      have hperm' : (between ++ x' :: behind).Perm rest :=
        ((perm_exchange [] between behind x' x).symm.trans hperm).cons_inv
      rw [List.map_append, List.map_cons] at hshapes'
      obtain ⟨between', behind', rfl, hbetween, hbehind⟩ := List.map_eq_append_iff.1 hshapes'.symm
      obtain ⟨y, behind', rfl, hy, hbehind⟩ := List.map_eq_cons_iff.1 hbehind
      have halike := ih hbody' hperm' (by
        rw [List.map_append, List.map_append, List.map_cons, List.map_cons, hbetween, hbehind, hx, hy])
      rw [List.append_assoc, List.singleton_append, facts, hbody] at halike
      have hlength : between'.length = between.length := by simpa using congrArg List.length hbetween
      have hdone : (c.head :: done).length = (c.head :: done).length := rfl
      have hboth := alikeAll_exchange hdone hlength halike
      exact Fact.alikeAll_trans (h.alikeAll hbody hy.symm) hboth

/-- A clause whose goals are exchangeable is recognized however its variables are named and its goals
are listed. -/
theorem IsExchangeable.recognizes (h : c.IsExchangeable) {change : VarName → VarName}
    (injective : ∀ x ∈ c.facts.flatMap Fact.varNames, ∀ y ∈ c.facts.flatMap Fact.varNames,
      change x = change y → x = y)
    {body : List Fact} (perm : body.Perm (c.body.map (Fact.rename change))) :
    c.Recognizes (.once (c.head.rename change) body) := by
  obtain ⟨goals, hperm, rfl⟩ : ∃ goals : List Fact, goals.Perm c.body ∧
      body = goals.map (Fact.rename change) := by
    have hcomp := List.eq_map_comp_perm (Fact.rename change)
    obtain ⟨goals, heq, hperm⟩ := (congrFun (congrFun hcomp body) c.body).mpr perm
    exact ⟨goals, hperm, heq⟩
  have hlisted : c.Recognizes (.once c.head goals) := by
    obtain ⟨arranged, harrange⟩ : ∃ arranged,
        arrange c.headNames c.headNames c.body goals = some arranged :=
      exists_arrange (hperm.map _)
    obtain ⟨hshapes, hfilter⟩ := arrange_eq_some_iff.1 harrange
    have harranged : arranged.Perm c.body := (arrange_perm harrange).trans hperm
    have halike := h.alikeAll_of_placed c.body.nil_append.symm harranged hshapes
    exact recognizes_iff.2 ⟨arranged, hshapes, hfilter, halike⟩
  have hnames : ∀ x ∈ (c.head :: goals).flatMap Fact.varNames, x ∈ c.facts.flatMap Fact.varNames := by
    intro x hx
    exact ((hperm.cons c.head).flatMap_right Fact.varNames).mem_iff.1 hx
  have hrenamed : (once c.head goals).Recognizes
      (.once (c.head.rename change) (goals.map (Fact.rename change))) :=
    recognizes_of_alikeAll (Fact.alikeAll_rename fun x hx y hy =>
      injective x (hnames x hx) y (hnames y hy))
  exact hlisted.trans hrenamed

/-- If a clause is recognized in every order of its goals, these are exchangeable. -/
theorem isExchangeable_of_recognizes
    (h : ∀ body : List Fact, body.Perm c.body → c.Recognizes (.once c.head body)) :
    c.IsExchangeable := by
  intro i hi j hj hsame
  have hperm : (c.body.swap i j).Perm c.body := List.swap_perm _ _ _
  have hshapes : (c.body.swap i j).map (shape c.headNames) = c.body.map (shape c.headNames) := by
    have hshape : shape c.headNames c.body[i] = shape c.headNames c.body[j] := shape_eq_iff.2 hsame
    apply List.ext_getElem
    · simp
    · intro k hk hk'
      rw [List.getElem_map, List.getElem_map, List.getElem_swap]
      split
      next hki =>
        obtain ⟨rfl, -⟩ := hki
        exact hshape.symm
      next =>
        split
        next hkj =>
          obtain ⟨rfl, -⟩ := hkj
          exact hshape
        next => rfl
  obtain ⟨goals, hshapes', hfilter, halike⟩ := recognizes_iff.1 (h _ hperm)
  have hgoals : arrange c.headNames c.headNames c.body (c.body.swap i j) = some goals :=
    arrange_eq_some_iff.2 ⟨hshapes', hfilter⟩
  have hplaced : arrange c.headNames c.headNames c.body (c.body.swap i j) = some (c.body.swap i j) :=
    arrange_eq_some_iff.2 ⟨hshapes, fun _ => rfl⟩
  obtain rfl : goals = c.body.swap i j := Option.some.inj (hgoals.symm.trans hplaced)
  exact halike

end Clause

namespace Program

variable {p : Program} {i : Nat} {c : Clause} {head : Fact} {body : List Fact}

private def openAt (functor : String) (names : List String) : Fact :=
  ⟨functor, names.map fun name => .var ⟨.named name, none⟩⟩

private def alone (c : Clause) : Program :=
  ((∅ : Program).assert c.head c.body).1

private theorem reachable_alone (c : Clause) : (alone c).Reachable :=
  .assert .empty _ _

/-- `p(X) :- e(X, Y), e(X, Z), f(X)`: the two edges have one shape, and either may come first. -/
def branch : Clause :=
  .once (openAt "p" ["X"]) [openAt "e" ["X", "Y"], openAt "e" ["X", "Z"], openAt "f" ["X"]]

private theorem isExchangeable_branch : branch.IsExchangeable := by
  unfold Clause.IsExchangeable
  simp only [← Fact.looksLike_pending]
  decide +kernel

/-- `p(1) :- e(A, B), e(B, C)`: the two edges have one shape, since the head has no variable. -/
def path : Clause :=
  .once ⟨"p", [.lit (.integer 1)]⟩ [openAt "e" ["A", "B"], openAt "e" ["B", "C"]]

end Program

end Horn
