import Horn.Proofs.Engine.InPlace
import Horn.Proofs.Program.Uniqueness

/-!
When an engine refuses a call, and what it does then.

Seven calls can be refused: `Call.IsImproper` says of each on its own terms when it should be.
`refused_iff_isImproper` says that a reachable engine refuses exactly these, and that it is the same
afterwards as it was before, although a call changes it step by step. A retraction is refused for a
protected head as well; that is no further case, since no stored clause has one.
-/

set_option autoImplicit false
set_option relaxedAutoImplicit false

namespace Horn

open InPlace (within restoring restoring_eq_error within_eq)

/-- A key that can be memoized spells a name without slashes and an arity of one at the least. -/
def Memo.IsWellFormed (key : String) : Prop :=
  ∃ name arity, readKey? key = some (name, arity) ∧ name ≠ "" ∧ '/' ∉ name.toList ∧ 1 ≤ arity

theorem Memo.isValidKey_iff {key : String} : isValidKey key = true ↔ IsWellFormed key := by
  rw [isValidKey, IsWellFormed]
  cases readKey? key with
  | none => simp
  | some spelled =>
    obtain ⟨name, arity⟩ := spelled
    simp [Nat.one_le_iff_ne_zero, and_assoc]

namespace Engine

variable {e : Engine} {α : Type}

/-! ### The operations in place -/

def onProgram (c : InPlace Program α) : InPlace Engine α :=
  within (fun e => e.table.program) withProgram c

def onMemo (c : InPlace Memo α) : InPlace Engine α :=
  within (fun e => e.table.memo) withMemo c

/-- Refuses a head that is reserved or built-in. -/
def checkHead (head : Fact) : InPlace Engine Unit := do
  match (← get).refusal? head with
  | some cause => throw cause
  | none => return

def assertInPlace (head : Fact) (body : List Fact) : InPlace Engine Assertion := do
  checkHead head
  onProgram (Program.assertInPlace head body)

def retractInPlace (head : Fact) (body : List Fact) : InPlace Engine Retraction := do
  checkHead head
  onProgram (Program.retractInPlace head body)

def selectTableInPlace (name : String) : InPlace Engine Unit := do
  let name := trimmedText name
  if name = "" then throw .invalidTableName
  match (← get).tables.findIdx? fun entry => entry.1 = name with
  | some position => modify fun e => { e with active := position }
  | none =>
    let position := (← get).tables.length
    modify fun e => { e with tables := e.tables ++ [(name, .empty)] }
    modify fun e => { e with active := position }

def enableMemoInPlace (key : String) : InPlace Engine Unit := do
  if (← get).registry.containsKey key then throw (.builtinPredicate key)
  onMemo (Memo.enableInPlace key)

/-- A call that can be refused. -/
inductive Call where
  | assert (head : Fact) (body : List Fact)
  | retract (head : Fact) (body : List Fact)
  | retractAt (position : Nat)
  | selectTable (name : String)
  | enableMemo (key : String)
  | disableMemo (key : String)
  | clearMemoKey (key : String)

namespace Call

/-- What a call answers. -/
def Answer : Call → Type
  | .assert _ _ => Assertion
  | .retract _ _ => Retraction
  | .retractAt _ => Clause
  | _ => Unit

/-- The engine after a call and its answer, or the cause why it is refused. -/
def result (e : Engine) : (call : Call) → Except Refusal (Engine × call.Answer)
  | .assert head body => e.assert head body
  | .retract head body => e.retract head body
  | .retractAt position => e.retractAt position
  | .selectTable name => (e.selectTable name).map (·, ())
  | .enableMemo key => (e.enableMemo key).map (·, ())
  | .disableMemo key => (e.disableMemo key).map (·, ())
  | .clearMemoKey key => (e.clearMemoKey key).map (·, ())

/-- A call that tests and changes the engine step by step. -/
def inPlace : (call : Call) → InPlace Engine call.Answer
  | .assert head body => assertInPlace head body
  | .retract head body => retractInPlace head body
  | .retractAt position => onProgram (Program.retractAtInPlace position)
  | .selectTable name => selectTableInPlace name
  | .enableMemo key => enableMemoInPlace key
  | .disableMemo key => onMemo (Memo.disableInPlace key)
  | .clearMemoKey key => onMemo (Memo.clearKeyInPlace key)

/-- A call that an engine should refuse: it asserts a clause with a reserved or built-in head, or retracts
one that is not stored, or the position, the name or the key does not apply. -/
def IsImproper (e : Engine) : Call → Prop
  | .assert head _ =>
    head.functor = queryFunctor ∨ e.registry.contains head.functor head.arity = true
  | .retract head body => ∀ c ∈ e.clauses, ¬ c.Recognizes (.once head body)
  | .retractAt position => e.clauseCount ≤ position
  | .selectTable name => trimmedText name = ""
  | .enableMemo key =>
    e.registry.containsKey key = true ∨ ¬ Memo.IsWellFormed key ∨ e.table.memo.isEnabled key = true
  | .disableMemo key => e.table.memo.isEnabled key = false
  | .clearMemoKey key => e.table.memo.isEnabled key = false

end Call

/-! ### Step by step and at once -/

theorem onProgram_eq (active : e.active < e.tables.length) {c : InPlace Program α}
    {result : Except Refusal (Program × α)} (h : c e.table.program = restoring e.table.program result) :
    onProgram c e = restoring e (result.map fun (program, a) => (e.withProgram program, a)) :=
  within_eq h (withTable_self active)

theorem onMemo_eq (active : e.active < e.tables.length) {c : InPlace Memo Unit}
    {result : Except Refusal Memo} (h : c e.table.memo = restoring e.table.memo (result.map (·, ()))) :
    onMemo c e = restoring e ((result.map e.withMemo).map (·, ())) :=
  calc onMemo c e = restoring e ((result.map (·, ())).map (Prod.map e.withMemo id)) :=
        within_eq h (withTable_self active)
    _ = restoring e ((result.map e.withMemo).map (·, ())) := by cases result <;> rfl

theorem checkHead_eq (e : Engine) (head : Fact) :
    checkHead head e =
      match e.refusal? head with
      | some cause => .error cause e
      | none => .ok () e := by
  cases hcheck : e.refusal? head <;> simp [checkHead, hcheck]

theorem assertInPlace_eq (active : e.active < e.tables.length) (head : Fact) (body : List Fact) :
    assertInPlace head body e = restoring e (e.assert head body) := by
  rw [assertInPlace, assert, InPlace.bind_apply, checkHead_eq]
  cases e.refusal? head with
  | some cause => rfl
  | none => exact onProgram_eq active (Program.assertInPlace_eq e.table.program head body)

theorem retractInPlace_eq (active : e.active < e.tables.length) (head : Fact) (body : List Fact) :
    retractInPlace head body e = restoring e (e.retract head body) := by
  rw [retractInPlace, retract, InPlace.bind_apply, checkHead_eq]
  cases e.refusal? head with
  | some cause => rfl
  | none => exact onProgram_eq active (Program.retractInPlace_eq e.table.program head body)

theorem selectTableInPlace_eq (e : Engine) (name : String) :
    selectTableInPlace name e = restoring e ((e.selectTable name).map (·, ())) := by
  rw [selectTableInPlace, selectTable]
  by_cases hname : trimmedText name = ""
  · simp [hname, restoring, Except.map]
  · cases hfound : e.tables.findIdx? fun entry => entry.1 = trimmedText name <;>
      simp [hname, hfound, restoring, Except.map]

theorem enableMemoInPlace_eq (active : e.active < e.tables.length) (key : String) :
    enableMemoInPlace key e = restoring e ((e.enableMemo key).map (·, ())) := by
  rw [enableMemoInPlace, enableMemo]
  cases hbuiltin : e.registry.containsKey key with
  | true => simp [hbuiltin, restoring, Except.map]
  | false =>
    have henable := onMemo_eq active (Memo.enableInPlace_eq e.table.memo key)
    simp [hbuiltin, henable]

/-- A call step by step comes to its result, or to the engine from before. -/
theorem Call.inPlace_eq (active : e.active < e.tables.length) (call : Call) :
    call.inPlace e = restoring e (call.result e) := by
  cases call with
  | assert head body => exact assertInPlace_eq active head body
  | retract head body => exact retractInPlace_eq active head body
  | retractAt position =>
    exact onProgram_eq active (Program.retractAtInPlace_eq e.table.program position)
  | selectTable name => exact selectTableInPlace_eq e name
  | enableMemo key => exact enableMemoInPlace_eq active key
  | disableMemo key => exact onMemo_eq active (Memo.disableInPlace_eq e.table.memo key)
  | clearMemoKey key => exact onMemo_eq active (Memo.clearKeyInPlace_eq e.table.memo key)

/-! ### Which calls are refused -/

private theorem exists_error_map {α β : Type} {f : α → β} {result : Except Refusal α} :
    (∃ cause, result.map f = .error cause) ↔ ∃ cause, result = .error cause := by
  cases result <;> simp [Except.map]

private theorem exists_error_ite {α : Type} {condition : Prop} [Decidable condition] {cause : Refusal}
    {result : Except Refusal α} :
    (∃ other, (if condition then .error cause else result) = .error other) ↔
      condition ∨ ∃ other, result = .error other := by
  by_cases h : condition <;> simp [h]

theorem refusal?_eq_none_iff {head : Fact} : e.refusal? head = none ↔
    head.functor ≠ queryFunctor ∧ e.registry.contains head.functor head.arity = false := by
  rw [refusal?]
  by_cases hreserved : head.functor = queryFunctor
  · simp [hreserved]
  · simp [hreserved]

theorem assert_refused_iff {head : Fact} {body : List Fact} :
    (∃ cause, e.assert head body = .error cause) ↔
      head.functor = queryFunctor ∨ e.registry.contains head.functor head.arity = true := by
  rw [assert]
  cases hcheck : e.refusal? head with
  | some cause =>
    have hprotected := refusal?_eq_none_iff.not.1 (by rw [hcheck]; exact Option.some_ne_none cause)
    rw [not_and_or, not_not, Bool.not_eq_false] at hprotected
    exact iff_of_true ⟨cause, rfl⟩ hprotected
  | none =>
    obtain ⟨hreserved, hbuiltin⟩ := refusal?_eq_none_iff.1 hcheck
    simp [hreserved, hbuiltin]

/-- Clauses with a protected head are not stored, so it is enough to look for the declared one. -/
theorem retract_refused_iff (reachable : e.Reachable) {head : Fact} {body : List Fact} :
    (∃ cause, e.retract head body = .error cause) ↔
      ∀ c ∈ e.clauses, ¬ c.Recognizes (.once head body) := by
  rw [retract]
  cases hcheck : e.refusal? head with
  | some cause =>
    refine iff_of_true ⟨cause, rfl⟩ fun c hc recognizes => ?_
    obtain ⟨hfunctor, harity⟩ := predicateKey_inj recognizes.key
    have hunprotected := reachable.head_unprotected c hc
    rw [hfunctor, harity] at hunprotected
    have hnone : e.refusal? head = none := refusal?_eq_none_iff.2 hunprotected
    rw [hnone] at hcheck
    exact absurd hcheck (Option.some_ne_none cause).symm
  | none =>
    have hscan := reachable.program_reachable.isIndexed.position?_eq head body
    rw [exists_error_map, Program.retract, hscan]
    cases hfound : e.table.program.clauses.toList.findIdx? (·.isDeclaredBy head body) with
    | none =>
      rw [List.findIdx?_eq_none_iff] at hfound
      refine iff_of_true ⟨_, rfl⟩ fun c hc => ?_
      exact Bool.eq_false_iff.1 (hfound c hc)
    | some position =>
      obtain ⟨hlt, hdeclared, -⟩ := List.findIdx?_eq_some_iff_getElem.1 hfound
      refine iff_of_false ?_ fun hno => hno _ (List.getElem_mem hlt) hdeclared
      rintro ⟨cause, herror⟩
      simp only at herror
      split at herror <;> cases herror

/-- A reachable engine refuses the improper calls, and no others. -/
theorem Call.refused_iff (reachable : e.Reachable) (call : Call) :
    (∃ cause, call.result e = .error cause) ↔ call.IsImproper e := by
  cases call with
  | assert head body => exact assert_refused_iff
  | retract head body => exact retract_refused_iff reachable
  | retractAt position =>
    refine exists_error_map.trans ?_
    rw [Program.retractAt, IsImproper, clauseCount, Program.size]
    cases hstored : e.table.program.clauses[position]? with
    | none => simpa using Array.getElem?_eq_none_iff.1 hstored
    | some c => simpa using (Array.getElem?_eq_some_iff.1 hstored).1
  | selectTable name =>
    refine exists_error_map.trans (exists_error_ite.trans (or_iff_left ?_))
    rintro ⟨cause, herror⟩
    split at herror <;> cases herror
  | enableMemo key =>
    refine exists_error_map.trans (exists_error_ite.trans (or_congr_right (exists_error_map.trans ?_)))
    rw [Memo.enable, ← Memo.isValidKey_iff]
    cases Memo.isValidKey key <;> cases e.table.memo.isEnabled key <;> simp
  | disableMemo key =>
    refine exists_error_map.trans (exists_error_map.trans ?_)
    rw [Memo.disable, IsImproper]
    cases e.table.memo.isEnabled key <;> simp
  | clearMemoKey key =>
    refine exists_error_map.trans (exists_error_map.trans ?_)
    rw [Memo.clearKey, IsImproper]
    cases e.table.memo.isEnabled key <;> simp

/-- A call that is refused leaves a reachable engine as it was, whatever it changed before; it is refused
if and only if it is improper; and step by step it comes to what it returns. -/
theorem refused_iff_isImproper (reachable : e.Reachable) (call : Call) :
    (∀ cause after, call.inPlace e = .error cause after → after = e) ∧
      ((∃ cause after, call.inPlace e = .error cause after) ↔ call.IsImproper e) ∧
      call.inPlace e = restoring e (call.result e) := by
  have heq := call.inPlace_eq reachable.active_lt
  refine ⟨fun cause after herror => ?_, ?_, heq⟩
  · rw [heq, restoring_eq_error] at herror
    exact herror.2
  · rw [← call.refused_iff reachable, heq]
    simp [restoring_eq_error]

/-- Memoizing `q/1` where it is memoized already. -/
def memoizedAgain : Call :=
  .enableMemo "q/1"

theorem refused_iff_memoizedAgain :
    memoizedAgain.IsImproper oneRule ∧
      (∀ cause after, memoizedAgain.inPlace oneRule = .error cause after → after = oneRule) ∧
      ((∃ cause after, memoizedAgain.inPlace oneRule = .error cause after) ↔
        memoizedAgain.IsImproper oneRule) ∧
      memoizedAgain.inPlace oneRule = restoring oneRule (memoizedAgain.result oneRule) := by
  have hreachable : oneRule.Reachable := reachableBy_after fun _ _ _ => trivial
  have hmemoized : oneRule.table.memo.isEnabled "q/1" = true := by with_unfolding_all rfl
  exact ⟨.inr (.inr hmemoized), refused_iff_isImproper hreachable memoizedAgain⟩

end Engine

end Horn
