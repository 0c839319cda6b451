import Horn.Proofs.Fact.Alpha
import Horn.Proofs.Unification.Names

/-!
What a clause head can resolve does not depend on names.

Whether two facts without a common variable unify is the same for all facts that equal them and have
no common variable either, since the names of both facts together correspond one to one. A head is
renamed to numbers past those of the goal before it is unified with it, so the two are apart even if
names are shared.
-/

set_option autoImplicit false
set_option relaxedAutoImplicit false

namespace Horn

/-- Two facts have no variable in common. -/
def Fact.Apart (f g : Fact) : Prop :=
  ∀ name ∈ f.varNames, name ∉ g.varNames

instance (f g : Fact) : Decidable (f.Apart g) :=
  inferInstanceAs (Decidable (∀ name ∈ f.varNames, name ∉ g.varNames))

variable {head head' goal goal' : Fact}

namespace Correspondence

/-- Facts that correspond do so by every correspondence that contains their part of the first. -/
private theorem OfFact.mono {m n : Correspondence} {f g : Fact} (h : m.OfFact f g)
    (names : ∀ x ∈ f.varNames, ∀ y ∈ g.varNames, m.names x y → n.names x y)
    (literals : ∀ u v, m.literals u v → n.literals u v) : n.OfFact f g := by
  refine ⟨h.functor, ?_⟩
  refine (List.forall₂_iff_zip.2 ⟨h.arity, fun {a c} hzip => ?_⟩)
  obtain ⟨hleft, hright⟩ := List.of_mem_zip hzip
  have hplace : m.OfAtom a c := (List.forall₂_iff_zip.1 h.args).2 hzip
  cases hplace with
  | lit hliterals => exact .lit (literals _ _ hliterals)
  | @var v w hnames hconditions =>
    have hvariable : n.names v.name w.name :=
      names _ (Fact.mem_varNames_of_mem hleft) _ (Fact.mem_varNames_of_mem hright) hnames
    refine .var hvariable ?_
    generalize v.condition = c at hconditions
    generalize w.condition = d at hconditions
    cases hconditions with
    | none => exact .none
    | some hcondition =>
      exact .some ⟨hcondition.operator, literals _ _ hcondition.operand⟩

/-- Two correspondences of facts that are apart on either side make up one. -/
private def join (m n : Correspondence) (apart : head.Apart goal) (apart' : head'.Apart goal') :
    Correspondence where
  names x y := (x ∈ head.varNames ∧ y ∈ head'.varNames ∧ m.names x y) ∨
    (x ∈ goal.varNames ∧ y ∈ goal'.varNames ∧ n.names x y)
  literals u v := (u == v) = true
  functional := by
    rintro x y z (⟨hx, hy, hxy⟩ | ⟨hx, hy, hxy⟩) (⟨hx', hz, hxz⟩ | ⟨hx', hz, hxz⟩)
    · exact m.functional hxy hxz
    · exact absurd hx' (apart x hx)
    · exact absurd hx (apart x hx')
    · exact n.functional hxy hxz
  injective := by
    rintro x y z (⟨hx, hz, hxz⟩ | ⟨hx, hz, hxz⟩) (⟨hy, hz', hyz⟩ | ⟨hy, hz', hyz⟩)
    · exact m.injective hxz hyz
    · exact absurd hz' (apart' z hz)
    · exact absurd hz (apart' z hz')
    · exact n.injective hxz hyz
  identical u := m.equal (m.identical u)
  equal h := h

private theorem exists_ofFacts (hhead : (head == head') = true) (hgoal : (goal == goal') = true)
    (apart : head.Apart goal) (apart' : head'.Apart goal') :
    ∃ m : Correspondence, m.OfFact head head' ∧ m.OfFact goal goal' := by
  obtain ⟨m, hm⟩ := Fact.alikeAll_iff.1 hhead
  obtain ⟨n, hn⟩ := Fact.alikeAll_iff.1 hgoal
  have hm : m.OfFact head head' := (List.forall₂_cons.1 hm).1
  have hn : n.OfFact goal goal' := (List.forall₂_cons.1 hn).1
  refine ⟨m.join n apart apart', ?_, ?_⟩
  · refine hm.mono (fun x hx y hy hxy => ?_) fun u v huv => m.equal huv
    exact .inl ⟨hx, hy, hxy⟩
  · refine hn.mono (fun x hx y hy hxy => ?_) fun u v huv => n.equal huv
    exact .inr ⟨hx, hy, hxy⟩

end Correspondence

/-- Whether facts unify that are apart does not depend on names. -/
theorem isSome_unify_eq (hhead : (head == head') = true) (hgoal : (goal == goal') = true)
    (apart : head.Apart goal) (apart' : head'.Apart goal') :
    (unify head goal).isSome = (unify head' goal').isSome := by
  obtain ⟨m, hm, hn⟩ := Correspondence.exists_ofFacts hhead hgoal apart apart'
  have hunify := Correspondence.unify hm hn
  generalize unify head goal = found at hunify
  generalize unify head' goal' = found' at hunify
  cases hunify with
  | none => rfl
  | some _ => rfl

namespace Fact

private theorem below_foldl {names : List VarName} {bound : Nat} {name : VarName}
    (h : name.Below bound ∨ name ∈ names) :
    name.Below (names.foldl
      (fun bound name =>
        match name with
        | .fresh number => max bound (number + 1)
        | .named _ => bound) bound) := by
  induction names generalizing bound with
  | nil => exact h.resolve_right List.not_mem_nil
  | cons other rest ih =>
    rw [List.foldl_cons]
    refine ih ?_
    rcases h with hbelow | hmem
    · refine .inl (hbelow.mono ?_)
      cases other with
      | named _ => exact Nat.le_refl _
      | fresh number => exact Nat.le_max_left _ _
    · rcases List.mem_cons.1 hmem with rfl | hrest
      · left
        cases name with
        | named _ => trivial
        | fresh number => exact Nat.le_max_right _ _
      · exact .inr hrest

/-- All fresh numbers of a fact lie below its bound. -/
theorem below_freshBound {f : Fact} {name : VarName} (h : name ∈ f.varNames) :
    name.Below f.freshBound :=
  below_foldl (.inr h)

/-- The head as it is renamed when it is tried for a goal. -/
def renamedFor (head goal : Fact) : Fact :=
  head.rename ((Numbering.ofFacts [head]).fresh goal.freshBound)

theorem canResolve_eq_isSome (head goal : Fact) :
    head.canResolve goal = (unify (head.renamedFor goal) goal).isSome := rfl

private theorem mem_ofFacts {f : Fact} {name : VarName} (h : name ∈ f.varNames) :
    name ∈ Numbering.ofFacts [f] := by
  refine Numbering.mem_ofNames.2 ?_
  rwa [List.flatMap_singleton]

theorem beq_renamedFor (head goal : Fact) : (head == head.renamedFor goal) = true := by
  refine beq_rename fun x hx y hy same => ?_
  have hnumber : (Numbering.ofFacts [head]).number x = (Numbering.ofFacts [head]).number y :=
    Nat.add_left_cancel (VarName.fresh.inj same)
  exact (List.idxOf_inj (mem_ofFacts hx)).1 hnumber

theorem apart_renamedFor (head goal : Fact) : (head.renamedFor goal).Apart goal := by
  intro name hname hgoal
  rw [renamedFor, varNames_rename, List.mem_map] at hname
  obtain ⟨old, -, rfl⟩ := hname
  have hbelow : goal.freshBound + (Numbering.ofFacts [head]).number old < goal.freshBound :=
    below_freshBound hgoal
  omega

/-- Whether a head can resolve a goal does not depend on the names in either, and it comes to whether
they unify once they are apart, which a renaming can always bring about. -/
theorem canResolve_ignores_names (hhead : (head == head') = true) (hgoal : (goal == goal') = true) :
    head.canResolve goal = head'.canResolve goal' ∧
      (head'.Apart goal' → head.canResolve goal = (unify head' goal').isSome) ∧
      ∃ renamed : Fact, (head == renamed) = true ∧ renamed.Apart goal := by
  have hunify : ∀ f : Fact, (head == f) = true → f.Apart goal' →
      head.canResolve goal = (unify f goal').isSome := by
    intro f hf apart
    have hrenamed : (head.renamedFor goal == f) = true :=
      BEq.trans (BEq.symm (beq_renamedFor head goal)) hf
    rw [canResolve_eq_isSome]
    exact isSome_unify_eq hrenamed hgoal (apart_renamedFor head goal) apart
  refine ⟨?_, hunify head' hhead, head.renamedFor goal, beq_renamedFor head goal,
    apart_renamedFor head goal⟩
  exact hunify (head'.renamedFor goal') (BEq.trans hhead (beq_renamedFor head' goal'))
    (apart_renamedFor head' goal')

private def lead (name : VarName) : Fact :=
  ⟨"p", [.var ⟨name, some ⟨.lt, .integer 3⟩⟩, .lit (.integer 2)]⟩

private def ask (name : VarName) : Fact :=
  ⟨"p", [.lit (.integer 1), .var ⟨name, none⟩]⟩

private theorem beq_rename_only {f : Fact} {x : VarName} (only : f.varNames = [x]) (y : VarName) :
    (f == f.rename fun _ => y) = true := by
  refine beq_rename fun z hz w hw _ => ?_
  rw [only] at hz hw
  rw [List.mem_singleton.1 hz, List.mem_singleton.1 hw]

/-- `p(X < 3, 2)` can resolve `p(1, X)` although the two do not unify as they stand. -/
theorem canResolve_ignores_names_shared :
    unify (lead (.named "X")) (ask (.named "X")) = none ∧
      (lead (.named "X")).canResolve (ask (.named "X")) =
        (lead (.fresh 7)).canResolve (ask (.fresh 7)) ∧
      (lead (.named "X")).canResolve (ask (.named "X")) =
        (unify (lead (.named "X")) (ask (.fresh 7))).isSome := by
  have apart : (lead (.named "X")).Apart (ask (.fresh 7)) := by
    intro name hname
    rw [List.mem_singleton.1 hname]
    decide
  have hlead (y : VarName) : (lead (.named "X") == lead y) = true := beq_rename_only rfl y
  have hask (y : VarName) : (ask (.named "X") == ask y) = true := beq_rename_only rfl y
  have hfresh := canResolve_ignores_names (hlead (.fresh 7)) (hask (.fresh 7))
  have hapart := canResolve_ignores_names (hlead (.named "X")) (hask (.fresh 7))
  exact ⟨rfl, hfresh.1, hapart.2.1 apart⟩

end Fact

end Horn
