import Horn.Proofs.Expression.Grammar
import Horn.Proofs.Text.Radix
import Mathlib.Data.List.Chain
import Mathlib.Data.List.TakeWhile

/-!
Cutting a text into tokens.

Taking the longest run of characters each time cuts a text into tokens that it consists of; and where of
two tokens side by side one always is a symbol, the text can be cut into them in no other way.
-/

set_option autoImplicit false
set_option relaxedAutoImplicit false

namespace Horn.Expression

namespace Token

variable {c : Char} {text rest blanks : List Char} {tokens : List Token}

/-! ### Kinds of characters -/

theorem isDigit_eq (c : Char) : isDigit c = c.isDigit := by
  have hdigit : isDigit c = true ↔ '0'.toNat ≤ c.toNat ∧ c.toNat ≤ '9'.toNat := by
    rw [isDigit, Radix.isDigit, Radix.digitValue?, show '0'.toNat = 48 from rfl,
      show '9'.toNat = 57 from rfl]
    grind
  exact Bool.eq_iff_iff.2 (hdigit.trans Char.isDigit_iff_toNat.symm)

theorem isNumeralChar_eq (c : Char) : isNumeralChar c = (c.isDigit || c == '.') := by
  rw [isNumeralChar, isDigit_eq]

private theorem isBlank_of_isNumeralChar (h : isNumeralChar c = true) : isBlank c = false := by
  rcases Bool.or_eq_true_iff.1 h with hdigit | hpoint
  · exact Radix.isBlank_of_isDigit hdigit
  · rw [eq_of_beq hpoint]
    decide

private theorem ne_dollar_of_isNumeralChar (h : isNumeralChar c = true) : c ≠ '$' := by
  rintro rfl
  exact absurd h (by decide)

/-- A character that is a token by itself stands for nothing else. -/
private theorem symbol_apart :
    ∀ c ∈ symbols, isBlank c = false ∧ c ≠ '$' ∧ isNumeralChar c = false := by
  have hall : symbols.all
      (fun c => decide (isBlank c = false ∧ c ≠ '$' ∧ isNumeralChar c = false)) = true := by decide
  exact fun c hc => of_decide_eq_true (List.all_eq_true.1 hall c hc)

/-! ### One token in front -/

private theorem ofText?_blank (blank : isBlank c = true) : ofText? (c :: rest) = ofText? rest := by
  rw [ofText?, if_pos blank]

theorem ofText?_blanks (blank : ∀ c ∈ blanks, isBlank c = true) :
    ofText? (blanks ++ text) = ofText? text := by
  induction blanks with
  | nil => rfl
  | cons c rest ih =>
    rw [List.forall_mem_cons] at blank
    rw [List.cons_append, ofText?_blank blank.1, ih blank.2]

theorem ofText?_symbol (mem : c ∈ symbols) :
    ofText? (c :: rest) = (ofText? rest).map (.symbol c :: ·) := by
  obtain ⟨hblank, hdollar, hnumeral⟩ := symbol_apart c mem
  rw [ofText?, if_neg (Bool.eq_false_iff.1 hblank), if_neg hdollar, if_neg (Bool.eq_false_iff.1 hnumeral),
    if_pos mem]

theorem ofText?_operand (run : ∀ c ∈ text, isDigit c = true)
    (ends : ∀ c ∈ rest.head?, isDigit c = false) :
    ofText? ('$' :: (text ++ rest)) = (ofText? rest).map (.operand text :: ·) := by
  rw [ofText?, if_neg (by decide), if_pos rfl, takeWhile_run run ends, dropWhile_run run ends]

theorem ofText?_numeral (run : IsRun isNumeralChar text)
    (ends : ∀ c ∈ rest.head?, isNumeralChar c = false) :
    ofText? (text ++ rest) = (ofText? rest).map (.numeral text :: ·) := by
  obtain ⟨c, behind, rfl⟩ := List.exists_cons_of_ne_nil run.ne_nil
  obtain ⟨hfirst, hbehind⟩ := List.forall_mem_cons.1 run.all
  rw [List.cons_append, ofText?, if_neg (Bool.eq_false_iff.1 (isBlank_of_isNumeralChar hfirst)),
    if_neg (ne_dollar_of_isNumeralChar hfirst), if_pos hfirst, takeWhile_run hbehind ends,
    dropWhile_run hbehind ends]

/-! ### Texts -/

/-- The token is one of the characters that are tokens by themselves. -/
def IsSymbol : Token → Prop
  | .symbol c => c ∈ symbols
  | .operand _ | .numeral _ => False

/-- Of two tokens side by side one is a symbol, and nothing passes for a symbol that is none. -/
structure AreApart (tokens : List Token) : Prop where
  known : ∀ c, .symbol c ∈ tokens → c ∈ symbols
  chain : tokens.IsChain fun a b => a.IsSymbol ∨ b.IsSymbol

theorem AreApart.tail {token : Token} (h : AreApart (token :: tokens)) : AreApart tokens :=
  ⟨fun c hc => h.known c (List.mem_cons_of_mem _ hc), (List.isChain_cons.1 h.chain).2⟩

/-- In front of a symbol ends whatever run of digits and points stands there. -/
private theorem isNumeralChar_head (spaced : Spaced tokens text)
    (symbol : ∀ token ∈ tokens.head?, IsSymbol token) :
    ∀ c ∈ text.head?, isNumeralChar c = false := by
  have hblank : ∀ c, isBlank c = true → isNumeralChar c = false := fun c h =>
    Bool.eq_false_iff.2 fun hnumeral => Bool.eq_false_iff.1 (isBlank_of_isNumeralChar hnumeral) h
  intro c hc
  cases spaced with
  | nil blank => exact hblank c (blank c (List.mem_of_mem_head? hc))
  | @cons blanks chars rest token tokens blank written behind =>
    cases blanks with
    | cons b blanks =>
      cases hc
      exact hblank c (blank c List.mem_cons_self)
    | nil =>
      have hsymbol := symbol token rfl
      cases written with
      | symbol d =>
        cases hc
        exact (symbol_apart c hsymbol).2.2
      | operand => exact hsymbol.elim
      | numeral => exact hsymbol.elim

/-- A text that consists of tokens which are apart is cut into them. -/
theorem ofText?_of_spaced (spaced : Spaced tokens text) (apart : AreApart tokens) :
    ofText? text = some tokens := by
  induction spaced with
  | @nil blanks blank => rw [← List.append_nil blanks, ofText?_blanks blank, ofText?]
  | @cons blanks chars rest token tokens blank written behind ih =>
    have hrest := ih apart.tail
    have hends (notSymbol : ¬IsSymbol token) : ∀ c ∈ rest.head?, isNumeralChar c = false :=
      isNumeralChar_head behind fun next hnext =>
        ((List.isChain_cons.1 apart.chain).1 next hnext).resolve_left notSymbol
    rw [ofText?_blanks blank]
    cases written with
    | symbol c =>
      rw [List.singleton_append, ofText?_symbol (apart.known c List.mem_cons_self), hrest]
      rfl
    | operand run =>
      have hdigit : ∀ c ∈ rest.head?, isDigit c = false := fun c hc =>
        (Bool.or_eq_false_iff.1 (hends id c hc)).1
      rw [List.cons_append, ofText?_operand (fun c hc => (isDigit_eq c).trans (run.all c hc)) hdigit,
        hrest]
      rfl
    | numeral run =>
      have hrun : IsRun isNumeralChar chars :=
        ⟨run.ne_nil, fun c hc => (isNumeralChar_eq c).trans (run.all c hc)⟩
      rw [ofText?_numeral hrun (hends id), hrest]
      rfl

private theorem spaced_blank (blank : isBlank c = true) (spaced : Spaced tokens text) :
    Spaced tokens (c :: text) := by
  cases spaced with
  | nil blanks => exact .nil (List.forall_mem_cons.2 ⟨blank, blanks⟩)
  | @cons others chars rest token tokens blanks written behind =>
    have hblanks : ∀ d ∈ c :: others, isBlank d = true := List.forall_mem_cons.2 ⟨blank, blanks⟩
    exact .cons hblanks written behind

private theorem spaced_cons {token : Token} (written : token.IsWritten text)
    (behind : Spaced tokens rest) : Spaced (token :: tokens) (text ++ rest) := by
  have hblanks : ∀ d ∈ ([] : List Char), isBlank d = true := fun _ h => absurd h List.not_mem_nil
  exact .cons hblanks written behind

/-- A text consists of the tokens into which it is cut, unless a dollar sign has no digits behind it. -/
theorem spaced_of_ofText? (cut : ofText? text = some tokens) (numbered : .operand [] ∉ tokens) :
    Spaced tokens text := by
  fun_induction ofText? text generalizing tokens with
  | case1 =>
    cases cut
    exact .nil fun _ h => absurd h List.not_mem_nil
  | case2 c rest blank ih => exact spaced_blank blank (ih cut numbered)
  | case3 rest blank ih =>
    obtain ⟨behind, hbehind, rfl⟩ := Option.map_eq_some_iff.1 cut
    rw [List.mem_cons, not_or] at numbered
    have hrun : IsRun Char.isDigit (rest.takeWhile isDigit) :=
      ⟨fun h => numbered.1 (h ▸ rfl), fun c hc => (isDigit_eq c).symm.trans (List.mem_takeWhile_imp hc)⟩
    have hspaced := spaced_cons (.operand hrun) (ih hbehind numbered.2)
    rwa [List.cons_append, List.takeWhile_append_dropWhile] at hspaced
  | case4 c rest blank dollar numeral ih =>
    obtain ⟨behind, hbehind, rfl⟩ := Option.map_eq_some_iff.1 cut
    have hrun : IsRun (fun c => c.isDigit || c == '.') (c :: rest.takeWhile isNumeralChar) := by
      refine ⟨List.cons_ne_nil _ _, List.forall_mem_cons.2 ⟨?_, fun d hd => ?_⟩⟩
      · exact (isNumeralChar_eq c).symm.trans numeral
      · exact (isNumeralChar_eq d).symm.trans (List.mem_takeWhile_imp hd)
    have hspaced := spaced_cons (.numeral hrun) (ih hbehind fun h => numbered (List.mem_cons_of_mem _ h))
    rwa [List.cons_append, List.takeWhile_append_dropWhile] at hspaced
  | case5 c rest blank dollar numeral mem ih =>
    obtain ⟨behind, hbehind, rfl⟩ := Option.map_eq_some_iff.1 cut
    exact spaced_cons (.symbol c) (ih hbehind fun h => numbered (List.mem_cons_of_mem _ h))
  | case6 => cases cut

end Token

end Horn.Expression
