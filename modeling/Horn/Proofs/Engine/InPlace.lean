import Horn.Proofs.Engine.Restoration

/-!
The operations of an engine in place.

Here a state is tested and changed step by step, in the order in which that happens: a key is taken out of
the memoized ones in order to see whether it was among them, and a count is lowered before it is known
whether the clause goes. A refusal takes nothing back. Each computation comes to what the operation
returns that it spells out, and where that is a refusal, the state is the one from before (`restoring`).
-/

set_option autoImplicit false
set_option relaxedAutoImplicit false

namespace Horn

/-- Computations that change a state in place and may be refused on the way. -/
abbrev InPlace (σ : Type) : Type → Type :=
  EStateM Refusal σ

namespace InPlace

variable {σ τ α β : Type}

@[simp] theorem pure_apply (a : α) (s : σ) : (pure a : InPlace σ α) s = .ok a s := rfl

@[simp] theorem bind_apply (c : InPlace σ α) (f : α → InPlace σ β) (s : σ) :
    (c >>= f) s =
      match c s with
      | .ok a t => f a t
      | .error cause t => .error cause t := by
  change EStateM.bind c f s = _
  rw [EStateM.bind]
  cases c s <;> rfl

@[simp] theorem map_apply (f : α → β) (c : InPlace σ α) (s : σ) :
    (f <$> c) s =
      match c s with
      | .ok a t => .ok (f a) t
      | .error cause t => .error cause t := by
  change EStateM.map f c s = _
  rw [EStateM.map]
  cases c s <;> rfl

@[simp] theorem get_apply (s : σ) : (get : InPlace σ σ) s = .ok s s := rfl

@[simp] theorem modify_apply (f : σ → σ) (s : σ) : (modify f : InPlace σ Unit) s = .ok () (f s) := rfl

@[simp] theorem modifyGet_apply (f : σ → α × σ) (s : σ) :
    (modifyGet f : InPlace σ α) s = .ok (f s).1 (f s).2 := rfl

@[simp] theorem throw_apply (cause : Refusal) (s : σ) :
    (throw cause : InPlace σ α) s = .error cause s := rfl

/-- A computation on a part of a state. -/
def within (part : σ → τ) (put : σ → τ → σ) (c : InPlace τ α) : InPlace σ α := fun s =>
  match c (part s) with
  | .ok a t => .ok a (put s t)
  | .error cause t => .error cause (put s t)

/-- What a computation comes to that returns a result, or is refused and leaves the state as it was. -/
def restoring (s : σ) : Except Refusal (σ × α) → EStateM.Result Refusal σ α
  | .ok (after, a) => .ok a after
  | .error cause => .error cause s

theorem restoring_eq_error {s after : σ} {result : Except Refusal (σ × α)} {cause : Refusal} :
    restoring s result = .error cause after ↔ result = .error cause ∧ after = s := by
  cases result <;> simp [restoring, eq_comm]

theorem within_eq {part : σ → τ} {put : σ → τ → σ} {c : InPlace τ α} {s : σ}
    {result : Except Refusal (τ × α)} (h : c (part s) = restoring (part s) result)
    (same : put s (part s) = s) :
    within part put c s = restoring s (result.map (Prod.map (put s) id)) := by
  rw [within, h]
  cases result with
  | ok done => rfl
  | error cause => simp [restoring, Except.map, same]

end InPlace

open InPlace (within restoring within_eq)

/-! ### Memos -/

namespace Memo

/-- Makes a key memoized, and tells whether it was not. -/
def insertKey (key : String) : InPlace Memo Bool :=
  modifyGet fun m =>
    (!m.isEnabled key, if m.isEnabled key then m else { m with enabled := m.enabled ++ [key] })

/-- Makes a key not memoized, and tells whether it was. -/
def removeKey (key : String) : InPlace Memo Bool :=
  modifyGet fun m => (m.isEnabled key, { m with enabled := m.enabled.filter (· ≠ key) })

def enableInPlace (key : String) : InPlace Memo Unit := do
  unless isValidKey key do throw (.invalidPredicateKey key)
  unless ← insertKey key do throw (.alreadyMemoized key)

def disableInPlace (key : String) : InPlace Memo Unit := do
  unless ← removeKey key do throw (.notMemoized key)
  modify (·.forget key)

def clearKeyInPlace (key : String) : InPlace Memo Unit := do
  unless (← get).isEnabled key do throw (.notMemoized key)
  modify (·.forget key)

theorem enableInPlace_eq (m : Memo) (key : String) :
    enableInPlace key m = restoring m ((m.enable key).map (·, ())) := by
  rw [enable]
  cases hvalid : isValidKey key <;> cases henabled : m.isEnabled key <;>
    simp [enableInPlace, insertKey, hvalid, henabled, restoring, Except.map]

theorem disableInPlace_eq (m : Memo) (key : String) :
    disableInPlace key m = restoring m ((m.disable key).map (·, ())) := by
  rw [disable]
  cases henabled : m.isEnabled key with
  | true => simp [disableInPlace, removeKey, henabled, restoring, Except.map, forget]
  | false =>
    have hsame : { m with enabled := m.enabled.filter (· ≠ key) } = m := by
      have hfilter : m.enabled.filter (· ≠ key) = m.enabled := by
        refine List.filter_eq_self.2 fun other hother => ?_
        rw [isEnabled, decide_eq_false_iff_not] at henabled
        exact decide_eq_true fun heq => henabled (heq ▸ hother)
      rw [hfilter]
    simp only [disableInPlace, removeKey, InPlace.bind_apply, InPlace.modifyGet_apply, henabled, hsame]
    rfl

theorem clearKeyInPlace_eq (m : Memo) (key : String) :
    clearKeyInPlace key m = restoring m ((m.clearKey key).map (·, ())) := by
  rw [clearKey]
  cases henabled : m.isEnabled key <;>
    simp [clearKeyInPlace, henabled, restoring, Except.map]

end Memo

/-! ### Programs -/

namespace Program

/-- The count of the clause at a position. -/
def countAt (p : Program) (position : Nat) : Nat :=
  (p.clauses[position]?.map Clause.count).getD 0

/-- Changes the count of the clause at a position. -/
def recount (position : Nat) (change : Nat → Nat) (p : Program) : Program :=
  { p with clauses := p.clauses.modify position fun c => { c with count := change c.count } }

def assertInPlace (head : Fact) (body : List Fact) : InPlace Program Assertion := do
  match (← get).position? head body with
  | some position =>
    modify (recount position (· + 1))
    return .duplicate ((← get).countAt position)
  | none =>
    modify fun p => { p with index := p.index.insert head.key p.clauses.size }
    modify fun p => { p with clauses := p.clauses.push (.once head body) }
    return .inserted

def retractInPlace (head : Fact) (body : List Fact) : InPlace Program Retraction := do
  match (← get).position? head body with
  | some position =>
    modify (recount position (· - 1))
    let count := (← get).countAt position
    if 0 < count then return .decremented count
    modify (·.eraseAt position)
    return .removed
  | none => throw .clauseNotFound

def retractAtInPlace (position : Nat) : InPlace Program Clause := do
  match (← get).clauses[position]? with
  | some c =>
    modify (·.eraseAt position)
    return c
  | none => throw (.indexOutOfBounds position (← get).size)

theorem assertInPlace_eq (p : Program) (head : Fact) (body : List Fact) :
    assertInPlace head body p = restoring p (.ok (p.assert head body)) := by
  rw [assert]
  cases hfound : p.position? head body <;>
    simp [assertInPlace, hfound, restoring, recount, countAt]

/-- Lowering a count lowers it by one where a clause stands, and elsewhere there is nothing to count. -/
theorem countAt_recount (p : Program) (position : Nat) :
    (p.recount position (· - 1)).countAt position = p.countAt position - 1 := by
  rw [countAt, recount, Array.getElem?_modify, if_pos rfl, countAt]
  cases p.clauses[position]? <;> rfl

/-- A count that is changed is set to what it is changed to. -/
theorem recount_eq (p : Program) (position : Nat) {change : Nat → Nat} {count : Nat}
    (h : ∀ c, p.clauses[position]? = some c → change c.count = count) :
    p.recount position change =
      { p with clauses := p.clauses.modify position fun c => { c with count := count } } := by
  rw [recount]
  congr 1
  refine Array.ext_getElem? fun j => ?_
  rw [Array.getElem?_modify, Array.getElem?_modify]
  by_cases hj : position = j
  · subst hj
    rw [if_pos rfl, if_pos rfl]
    cases hc : p.clauses[position]? with
    | none => rfl
    | some c => simp [h c hc]
  · rw [if_neg hj, if_neg hj]

/-- It does not matter what a count was changed to before its clause is removed. -/
theorem eraseAt_recount (p : Program) (position : Nat) (change : Nat → Nat) :
    (p.recount position change).eraseAt position = p.eraseAt position := by
  have hclauses : (p.recount position change).clauses.eraseIdxIfInBounds position =
      p.clauses.eraseIdxIfInBounds position := by
    rw [← Array.toList_inj, Array.toList_eraseIdxIfInBounds, Array.toList_eraseIdxIfInBounds, recount,
      Array.toList_modify, List.eraseIdx_modify_of_eq]
  rw [eraseAt, eraseAt, hclauses]

theorem retractInPlace_eq (p : Program) (head : Fact) (body : List Fact) :
    retractInPlace head body p = restoring p (p.retract head body) := by
  rw [retract]
  cases hfound : p.position? head body with
  | none => simp [retractInPlace, hfound, restoring]
  | some position =>
    have hstored : (p.clauses[position]?.map Clause.count).getD 0 = p.countAt position := rfl
    have hcount := p.countAt_recount position
    simp only [hstored]
    cases hleft : p.countAt position - 1 with
    | zero => simp [retractInPlace, hfound, hcount, hleft, eraseAt_recount, restoring]
    | succ count =>
      have hrecount : p.recount position (· - 1) = { p with
          clauses := p.clauses.modify position fun c => { c with count := count + 1 } } := by
        refine p.recount_eq position fun c hc => ?_
        rw [countAt, hc] at hleft
        exact hleft
      simp [retractInPlace, hfound, hcount, hleft, restoring, ← hrecount]

theorem retractAtInPlace_eq (p : Program) (position : Nat) :
    retractAtInPlace position p = restoring p (p.retractAt position) := by
  rw [retractAt]
  cases hstored : p.clauses[position]? <;> simp [retractAtInPlace, hstored, restoring]

end Program

end Horn
