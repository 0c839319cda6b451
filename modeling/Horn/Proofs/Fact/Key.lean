import Horn.Fact.Key
import Horn.Proofs.Text.Radix

/-!
Keys tell predicates apart.

The decimal digits of an arity spell it, and none of them is a slash. So a key can be divided at its
last slash in one way only, `predicateKey` is injective, and `readKey?` reads its keys back.

`readKey?` reads more than these: an arity may stand behind a plus sign and behind zeros. An `ArityForm`
says how one is written, and `readKey?_eq_some_iff` that these are all the texts that are read.
-/

set_option autoImplicit false
set_option relaxedAutoImplicit false

namespace Horn

namespace Radix

private theorem isDigit_of_mem_decimals (value : Nat) : ∀ c ∈ digits 10 value, isDigit 10 c = true :=
  isDigit_of_mem_digits (by decide) (by decide) value

end Radix

private theorem eq_of_append_cons {α : Type} {as bs cs ds : List α} {a : α}
    (h : as ++ a :: bs = cs ++ a :: ds) (hbs : a ∉ bs) (hds : a ∉ ds) : as = cs ∧ bs = ds := by
  induction as generalizing cs with
  | nil =>
    cases cs with
    | nil => exact ⟨rfl, (List.cons.inj h).2⟩
    | cons c cs =>
      obtain ⟨rfl, hrest⟩ := List.cons.inj h
      exact absurd (hrest ▸ List.mem_append_right cs List.mem_cons_self) hbs
  | cons b as ih =>
    cases cs with
    | nil =>
      obtain ⟨rfl, hrest⟩ := List.cons.inj h
      exact absurd (hrest ▸ List.mem_append_right as List.mem_cons_self) hds
    | cons c cs =>
      obtain ⟨rfl, hrest⟩ := List.cons.inj h
      obtain ⟨rfl, hbehind⟩ := ih hrest
      exact ⟨rfl, hbehind⟩

/-- The characters of a key. -/
theorem toList_predicateKey (functor : String) (arity : Nat) :
    (predicateKey functor arity).toList = functor.toList ++ '/' :: Radix.digits 10 arity := by
  rw [predicateKey, arityText_eq, Radix.render, if_neg (by omega), Int.natAbs_natCast]
  simp

/-! ### Texts divided at their last slash -/

private theorem divideAtLastSlash?_eq_none_iff {text : List Char} :
    divideAtLastSlash? text = none ↔ '/' ∉ text := by
  induction text with
  | nil => exact ⟨fun _ => List.not_mem_nil, fun _ => rfl⟩
  | cons c rest ih =>
    rw [divideAtLastSlash?, List.mem_cons, not_or, ← ih, eq_comm (a := '/')]
    cases divideAtLastSlash? rest with
    | none => by_cases hc : c = '/' <;> simp [hc]
    | some parts => simp

/-- A text is divided where no slash follows. -/
theorem divideAtLastSlash?_eq_some_iff {text before after : List Char} :
    divideAtLastSlash? text = some (before, after) ↔
      text = before ++ '/' :: after ∧ '/' ∉ after := by
  constructor
  · intro h
    induction text generalizing before with
    | nil => cases h
    | cons c rest ih =>
      rw [divideAtLastSlash?] at h
      split at h
      · rename_i front behind hrest
        cases h
        obtain ⟨htext, hbehind⟩ := ih hrest
        exact ⟨congrArg (c :: ·) htext, hbehind⟩
      · rename_i hnone
        obtain ⟨rfl, hhere⟩ := Option.ite_none_right_eq_some.1 h
        cases hhere
        exact ⟨rfl, divideAtLastSlash?_eq_none_iff.1 hnone⟩
  · rintro ⟨rfl, hafter⟩
    induction before with
    | nil =>
      rw [List.nil_append, divideAtLastSlash?, divideAtLastSlash?_eq_none_iff.2 hafter, if_pos rfl]
    | cons c before ih => rw [List.cons_append, divideAtLastSlash?, ih]

/-! ### Arities in all their forms -/

/-- A run of digits stands for its number if that is below the bound. -/
theorem natural?_iff {bound n : Nat} {digits : List Char} (room : 0 < bound) :
    natural? bound digits = some n ↔ (digits ≠ [] ∧ digits.all (Radix.isDigit 10) = true) ∧
      Radix.value 10 digits = n ∧ n < bound := by
  rw [natural?, Option.ite_none_right_eq_some, Radix.valueBelow?_eq (by decide) room,
    Option.ite_none_right_eq_some, Option.some.injEq]
  refine and_congr_right fun _ => ⟨?_, ?_⟩
  · rintro ⟨hbound, rfl⟩
    exact ⟨rfl, hbound⟩
  · rintro ⟨rfl, hbound⟩
    exact ⟨hbound, rfl⟩

/-- How an arity is written: behind a plus sign or not, and behind how many zeros. -/
structure ArityForm where
  plus : Bool
  zeros : Nat
  deriving DecidableEq, Repr

namespace ArityForm

variable {form other : ArityForm} {arity otherArity : Nat}

/-- The form in the key of a predicate. -/
def plain : ArityForm :=
  ⟨false, 0⟩

/-- The digits of an arity behind zeros. -/
def digits (form : ArityForm) (arity : Nat) : List Char :=
  List.replicate form.zeros '0' ++ Radix.digits 10 arity

/-- An arity in a form. -/
def text (form : ArityForm) (arity : Nat) : List Char :=
  if form.plus then '+' :: form.digits arity else form.digits arity

theorem digits_ne_nil (form : ArityForm) (arity : Nat) : form.digits arity ≠ [] :=
  List.append_ne_nil_of_right_ne_nil _ (Radix.digits_ne_nil 10 arity)

theorem isDigit_of_mem_digits {c : Char} (h : c ∈ form.digits arity) : Radix.isDigit 10 c = true := by
  rcases List.mem_append.1 h with hzero | hdigit
  · rw [(List.mem_replicate.1 hzero).2]
    decide
  · exact Radix.isDigit_of_mem_decimals arity c hdigit

theorem value_digits (form : ArityForm) (arity : Nat) : Radix.value 10 (form.digits arity) = arity := by
  rw [digits, Radix.value_zeros_append (by decide), Radix.value_digits (by decide) (by decide)]

theorem digits_ne_plus (form : ArityForm) (arity : Nat) (rest : List Char) :
    form.digits arity ≠ '+' :: rest := by
  intro h
  have hsign := isDigit_of_mem_digits (h ▸ List.mem_cons_self : '+' ∈ form.digits arity)
  exact absurd hsign (by decide)

theorem slash_notMem_text (form : ArityForm) (arity : Nat) : '/' ∉ form.text arity := by
  have hdigits : '/' ∉ form.digits arity := fun h => absurd (isDigit_of_mem_digits h) (by decide)
  rw [text]
  split
  · rw [List.mem_cons, not_or]
    exact ⟨by decide, hdigits⟩
  · exact hdigits

private theorem digits_inj (h : form.digits arity = other.digits otherArity) :
    arity = otherArity ∧ form.zeros = other.zeros := by
  have hvalue := congrArg (Radix.value 10) h
  rw [value_digits, value_digits] at hvalue
  subst hvalue
  have hlength := congrArg List.length h
  simp only [digits, List.length_append, List.length_replicate] at hlength
  exact ⟨rfl, by omega⟩

/-- Forms of arities differ in their texts. -/
theorem text_inj (h : form.text arity = other.text otherArity) : arity = otherArity ∧ form = other := by
  obtain ⟨plus, zeros⟩ := form
  obtain ⟨otherPlus, otherZeros⟩ := other
  cases plus with
  | false =>
    cases otherPlus with
    | false =>
      obtain ⟨rfl, rfl⟩ := digits_inj h
      exact ⟨rfl, rfl⟩
    | true => exact absurd h (digits_ne_plus _ _ _)
  | true =>
    cases otherPlus with
    | false => exact absurd h.symm (digits_ne_plus _ _ _)
    | true =>
      obtain ⟨rfl, rfl⟩ := digits_inj (List.cons.inj h).2
      exact ⟨rfl, rfl⟩

end ArityForm

/-- An arity is read in every form, if it fits. -/
theorem arity?_eq_some_iff {text : List Char} {arity : Nat} :
    arity? text = some arity ↔ arity < wordBound ∧ ∃ form : ArityForm, text = form.text arity := by
  have hnatural (form : ArityForm) : natural? wordBound (form.digits arity) = some arity ↔
      arity < wordBound := by
    rw [natural?_iff (by decide), form.value_digits]
    have hall : (form.digits arity).all (Radix.isDigit 10) = true :=
      List.all_eq_true.2 fun _ => ArityForm.isDigit_of_mem_digits
    simp [form.digits_ne_nil arity, hall]
  have hforms (digits : List Char) (h : natural? wordBound digits = some arity) :
      arity < wordBound ∧ ∃ zeros, digits = List.replicate zeros '0' ++ Radix.digits 10 arity := by
    obtain ⟨⟨hnonempty, hall⟩, rfl, hbound⟩ := (natural?_iff (by decide)).1 h
    exact ⟨hbound, Radix.exists_eq_zeros_append (by decide) (by decide) hnonempty
      (List.all_eq_true.1 hall)⟩
  constructor
  · intro h
    unfold arity? at h
    dsimp only at h
    split at h
    · obtain ⟨hbound, zeros, rfl⟩ := hforms _ h
      exact ⟨hbound, ⟨true, zeros⟩, rfl⟩
    · obtain ⟨hbound, zeros, rfl⟩ := hforms _ h
      exact ⟨hbound, ⟨false, zeros⟩, rfl⟩
  · rintro ⟨hbound, ⟨plus, zeros⟩, rfl⟩
    cases plus with
    | true => exact (hnatural ⟨true, zeros⟩).2 hbound
    | false =>
      unfold arity?
      rw [ArityForm.text, if_neg Bool.false_ne_true]
      dsimp only
      split
      · rename_i rest hplus
        exact absurd hplus (ArityForm.digits_ne_plus _ _ _)
      · exact (hnatural ⟨false, zeros⟩).2 hbound

/-! ### Keys read back -/

/-- A key in which the arity is written in some form. -/
def ArityForm.key (form : ArityForm) (functor : String) (arity : Nat) : String :=
  functor ++ "/" ++ String.ofList (form.text arity)

theorem ArityForm.toList_key (form : ArityForm) (functor : String) (arity : Nat) :
    (form.key functor arity).toList = functor.toList ++ '/' :: form.text arity := by
  simp [ArityForm.key]

theorem ArityForm.key_plain (functor : String) (arity : Nat) :
    plain.key functor arity = predicateKey functor arity := by
  rw [← String.toList_inj, toList_key, toList_predicateKey]
  rfl

/-- A key spells one predicate, in one form. -/
theorem ArityForm.key_inj {form other : ArityForm} {functor otherFunctor : String} {arity otherArity : Nat}
    (h : form.key functor arity = other.key otherFunctor otherArity) :
    functor = otherFunctor ∧ arity = otherArity ∧ form = other := by
  have hchars := congrArg String.toList h
  rw [toList_key, toList_key] at hchars
  obtain ⟨hname, htext⟩ := eq_of_append_cons hchars (slash_notMem_text _ _) (slash_notMem_text _ _)
  exact ⟨String.toList_inj.1 hname, text_inj htext⟩

/-- Predicates with equal keys have the same name and the same arity. -/
theorem predicateKey_inj {functor other : String} {arity otherArity : Nat}
    (h : predicateKey functor arity = predicateKey other otherArity) :
    functor = other ∧ arity = otherArity := by
  rw [← ArityForm.key_plain, ← ArityForm.key_plain] at h
  obtain ⟨hname, harity, -⟩ := ArityForm.key_inj h
  exact ⟨hname, harity⟩

/-- The facts with the key of a predicate are the facts of that predicate. -/
theorem Fact.key_eq_iff {f : Fact} {functor : String} {arity : Nat} :
    f.key = predicateKey functor arity ↔ f.functor = functor ∧ f.arity = arity := by
  refine ⟨predicateKey_inj, ?_⟩
  rintro ⟨rfl, rfl⟩
  rfl

/-- What a key reads as is what it spells in some form, if the arity fits. -/
theorem readKey?_eq_some_iff {key functor : String} {arity : Nat} :
    readKey? key = some (functor, arity) ↔
      arity < wordBound ∧ ∃ form : ArityForm, key = form.key functor arity := by
  constructor
  · intro h
    rw [readKey?] at h
    obtain ⟨⟨before, after⟩, hdivide, h⟩ := Option.bind_eq_some_iff.1 h
    obtain ⟨read, hread, h⟩ := Option.bind_eq_some_iff.1 h
    cases h
    obtain ⟨hkey, -⟩ := divideAtLastSlash?_eq_some_iff.1 hdivide
    obtain ⟨hbound, form, rfl⟩ := arity?_eq_some_iff.1 hread
    refine ⟨hbound, form, String.toList_inj.1 ?_⟩
    rw [hkey, form.toList_key, String.toList_ofList]
  · rintro ⟨hbound, form, rfl⟩
    have hdivide := divideAtLastSlash?_eq_some_iff.2 ⟨form.toList_key functor arity,
      form.slash_notMem_text arity⟩
    rw [readKey?, hdivide]
    simp only [Option.bind_eq_bind, Option.bind_some, arity?_eq_some_iff.2 ⟨hbound, form, rfl⟩]
    rw [String.ofList_toList]
    rfl

/-- A key spells the predicate that it is the key of, if the arity fits. -/
theorem readKey?_predicateKey (functor : String) (arity : Nat) :
    readKey? (predicateKey functor arity) =
      if arity < wordBound then some (functor, arity) else none := by
  split
  · rename_i hbound
    exact readKey?_eq_some_iff.2 ⟨hbound, .plain, (ArityForm.key_plain functor arity).symm⟩
  · rename_i hbound
    refine Option.eq_none_iff_forall_ne_some.2 fun ⟨other, otherArity⟩ h => ?_
    obtain ⟨hfits, form, hkey⟩ := readKey?_eq_some_iff.1 h
    rw [← ArityForm.key_plain] at hkey
    obtain ⟨-, rfl, -⟩ := ArityForm.key_inj hkey
    exact hbound hfits

end Horn
