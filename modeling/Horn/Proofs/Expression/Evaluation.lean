import Horn.Proofs.Builtin.Evaluation
import Horn.Proofs.Expression.Reading
import Horn.Proofs.Expression.Tokens
import Horn.Proofs.Fact.Key

/-!
The value of a text is the value of its parse tree.

What is derived from the grammar has a symbol between any two tokens that could run together, so a text
can be cut into it in one way only. Main statement: a text has a value exactly if it has a parse tree
that denotes it, and no text has two parse trees.
-/

set_option autoImplicit false
set_option relaxedAutoImplicit false

namespace Horn.Expression

variable {operands : List Number} {phrase : Phrase} {tree : Expression} {tokens : List Token}
  {value : Number}

/-! ### Values -/

/-- A run of digits stands for a number if that is below the bound. -/
theorem natural?_eq_some_iff {bound n : Nat} {digits : List Char} (room : 0 < bound) :
    natural? bound digits = some n ↔
      IsRun Char.isDigit digits ∧ Radix.value 10 digits = n ∧ n < bound := by
  have hrun : (digits ≠ [] ∧ digits.all (Radix.isDigit 10) = true) ↔ IsRun Char.isDigit digits := by
    have hall : digits.all (Radix.isDigit 10) = digits.all Char.isDigit :=
      congrArg digits.all (funext Token.isDigit_eq)
    rw [hall, List.all_eq_true]
    exact ⟨fun h => ⟨h.1, h.2⟩, fun h => ⟨h.ne_nil, h.all⟩⟩
  rw [natural?_iff room, hrun]

/-- A numeral without a point denotes its number if that is an integer of 64 bits, which it is not if it
is no word. -/
private theorem numeralValue?_of_run {text : List Char} (run : IsRun Char.isDigit text) :
    numeralValue? text = (int64? (Radix.value 10 text)).map .int := by
  have hpoint : '.' ∉ text := fun h => absurd (run.all '.' h) (by decide)
  rw [numeralValue?, if_neg hpoint]
  by_cases hword : Radix.value 10 text < wordBound
  · rw [(natural?_eq_some_iff (by decide)).2 ⟨run, rfl, hword⟩, Option.bind_some]
  · have hnatural : natural? wordBound text = none :=
      Option.eq_none_iff_forall_ne_some.2 fun n h => by
        obtain ⟨-, rfl, hsmall⟩ := (natural?_eq_some_iff (by decide)).1 h
        exact hword hsmall
    have hinteger : int64? (Radix.value 10 text) = none :=
      int64?_eq_none_iff.2 (.inr (by rw [wordBound] at hword; omega))
    rw [hnatural, hinteger]
    rfl

/-- Values are computed as parse trees denote them. -/
theorem value?_eq_some_iff : value? operands tree = some value ↔ Denotes operands tree value := by
  constructor
  · intro h
    induction tree generalizing value with
    | numeral text =>
      rw [value?, numeralValue?] at h
      split at h
      · rename_i hpoint
        obtain ⟨x, hx, rfl⟩ := Option.map_eq_some_iff.1 h
        exact .double hpoint hx
      · obtain ⟨w, hw, rfl⟩ := Option.map_eq_some_iff.1 h
        obtain ⟨n, hn, hw⟩ := Option.bind_eq_some_iff.1 hw
        obtain ⟨hrun, rfl, -⟩ := (natural?_eq_some_iff (by decide)).1 hn
        exact .integer hrun (int64?_eq_some_iff.1 hw)
    | operand digits =>
      obtain ⟨n, hn, hfound⟩ := Option.bind_eq_some_iff.1 h
      obtain ⟨hrun, rfl, hword⟩ := (natural?_eq_some_iff (by decide)).1 hn
      exact .operand hrun hword hfound
    | group inner ih => exact .group (ih h)
    | unary op arg ih =>
      obtain ⟨x, hx, happlied⟩ := Option.bind_eq_some_iff.1 h
      exact .unary (ih hx) happlied
    | binary op left right ihleft ihright =>
      obtain ⟨x, hx, h⟩ := Option.bind_eq_some_iff.1 h
      obtain ⟨y, hy, happlied⟩ := Option.bind_eq_some_iff.1 h
      exact .binary (ihleft hx) (ihright hy) happlied
  · intro h
    induction h with
    | integer run spelled =>
      rw [value?, numeralValue?_of_run run, int64?_eq_some_iff.2 spelled, Option.map_some]
    | double point spelled =>
      rw [value?, numeralValue?, if_pos point, spelled, Option.map_some]
    | operand run word found =>
      rw [value?, operandValue?, (natural?_eq_some_iff (by decide)).2 ⟨run, rfl, word⟩,
        Option.bind_some, found]
    | group inside ih => rwa [value?]
    | unary behind applied ih => rw [value?, ih, Option.bind_some, applied]
    | binary first last applied ihfirst ihlast =>
      rw [value?, ihfirst, Option.bind_some, ihlast, Option.bind_some, applied]

/-! ### Derived tokens -/

/-- A symbol keeps apart what stands on its two sides. -/
private theorem areApart_join {front behind : List Token} {c : Char} (hfront : Token.AreApart front)
    (hbehind : Token.AreApart behind) (symbol : c ∈ Token.symbols) :
    Token.AreApart (front ++ .symbol c :: behind) := by
  refine ⟨fun d hd => ?_, ?_⟩
  · rcases List.mem_append.1 hd with h | h
    · exact hfront.known d h
    · rcases List.mem_cons.1 h with h | h
      · cases h
        exact symbol
      · exact hbehind.known d h
  · refine List.isChain_append.2 ⟨hfront.chain, List.isChain_cons.2 ⟨?_, hbehind.chain⟩, ?_⟩
    · exact fun _ _ => .inl symbol
    · intro _ _ next hnext
      cases hnext
      exact .inr symbol

private theorem areApart_nil : Token.AreApart [] :=
  ⟨fun _ h => absurd h List.not_mem_nil, List.isChain_nil⟩

theorem areApart_of_derives (derived : Derives phrase tree tokens) : Token.AreApart tokens := by
  induction derived with
  | part row only ih => exact ih
  | @join phrase part operators left right front behind c op row first operator last ihfirst ihlast =>
    obtain ⟨hop, -⟩ := (Phrase.rank_of_row? row).2.2 _ operator
    obtain ⟨d, hd, hmem⟩ := exists_mem_operators hop
    have hsymbols : ∀ o ∈ Expression.operators, o.1 ∈ Token.symbols := by decide
    cases hd
    exact areApart_join ihfirst ihlast (hsymbols _ hmem)
  | signed sign behind ih =>
    have hsymbols : ∀ s ∈ signs, s.1 ∈ Token.symbols := by decide
    exact areApart_join areApart_nil ih (hsymbols _ sign)
  | primary only ih => exact ih
  | group inside ih =>
    exact areApart_join areApart_nil (areApart_join ih areApart_nil (by decide)) (by decide)
  | operand digits => exact ⟨fun c h => by simp at h, List.isChain_singleton _⟩
  | numeral text => exact ⟨fun c h => by simp at h, List.isChain_singleton _⟩

/-- Behind every dollar sign of a parse tree with a value stands a number. -/
theorem operand_nil_notMem (derived : Derives phrase tree tokens)
    (denotes : Denotes operands tree value) : Token.operand [] ∉ tokens := by
  induction derived generalizing value with
  | part row only ih => exact ih denotes
  | join row first operator last ihfirst ihlast =>
    cases denotes with
    | binary hfirst hlast applied =>
      have hleft := ihfirst hfirst
      have hright := ihlast hlast
      simp [hleft, hright]
  | signed sign behind ih =>
    cases denotes with
    | unary hbehind applied => simpa using ih hbehind
  | primary only ih => exact ih denotes
  | group inside ih =>
    cases denotes with
    | group hinside => simpa using ih hinside
  | operand digits =>
    cases denotes with
    | operand run word found =>
      intro h
      cases List.mem_singleton.1 h
      exact run.ne_nil rfl
  | numeral text => simp

/-! ### Texts -/

/-- A parse tree of a text is what is read from it. -/
theorem ofText?_of_parses {text : String} (parses : Parses tree text) : ofText? text = some tree := by
  obtain ⟨tokens, hderived, hspaced⟩ := parses
  rw [ofText?, Token.ofText?_of_spaced hspaced (areApart_of_derives hderived), Option.bind_some]
  exact ofTokens?_eq_some_iff.2 hderived

/-- What is read from a text is a parse tree of it, if it has a value. -/
theorem parses_of_ofText? {text : String} (read : ofText? text = some tree)
    (denotes : Denotes operands tree value) : Parses tree text := by
  obtain ⟨tokens, htokens, htree⟩ := Option.bind_eq_some_iff.1 read
  have hderived := ofTokens?_eq_some_iff.1 htree
  exact ⟨tokens, hderived, Token.spaced_of_ofText? htokens (operand_nil_notMem hderived denotes)⟩

/-- A text has a value, for any operands, exactly if it has a parse tree that denotes it; and there are no
two parse trees of one text. -/
theorem evaluates_parse_tree (text : String) (operands : List Number) :
    (∀ value, evaluate? text operands = some value ↔
        ∃ tree, Parses tree text ∧ Denotes operands tree value) ∧
      ∀ tree other, Parses tree text → Parses other text → tree = other := by
  refine ⟨fun value => ⟨fun h => ?_, ?_⟩, fun tree other htree hother => ?_⟩
  · obtain ⟨tree, hread, hvalue⟩ := Option.bind_eq_some_iff.1 h
    have hdenotes := value?_eq_some_iff.1 hvalue
    exact ⟨tree, parses_of_ofText? hread hdenotes, hdenotes⟩
  · rintro ⟨tree, hparses, hdenotes⟩
    rw [evaluate?, ofText?_of_parses hparses, Option.bind_some]
    exact value?_eq_some_iff.2 hdenotes
  · exact Option.some.inj ((ofText?_of_parses htree).symm.trans (ofText?_of_parses hother))

/-- A product binds tighter than the difference in front of it. -/
theorem evaluates_parse_tree_difference :
    ∃ tree, (Parses tree "$0 - -2*(3)" ∧ Denotes [.int 1] tree (.int 7)) ∧
      ∀ other, Parses other "$0 - -2*(3)" → other = tree := by
  obtain ⟨hvalue, hunique⟩ := evaluates_parse_tree "$0 - -2*(3)" [.int 1]
  have hread : ofText? "$0 - -2*(3)" = some (.binary .sub (.operand ['0'])
      (.binary .mul (.unary .minus (.numeral ['2'])) (.group (.numeral ['3'])))) := by decide +kernel
  have hevaluate : evaluate? "$0 - -2*(3)" [.int 1] = some (.int 7) := by
    rw [evaluate?, hread]
    rfl
  obtain ⟨tree, hparses, hdenotes⟩ := (hvalue _).1 hevaluate
  exact ⟨tree, ⟨hparses, hdenotes⟩, fun other hother => hunique other tree hother hparses⟩

end Horn.Expression
