import Horn.Proofs.Expression.Grammar

/-!
The reader follows the grammar.

The functions that read come with proofs that they leave fewer tokens; without these proofs they are
`level?`, `prolong?` and `primary?` here. What is derived from a phrase is read at the level of the
phrase, and what is read is derived.
-/

set_option autoImplicit false
set_option relaxedAutoImplicit false

namespace Horn.Expression

variable {level : Nat} {tokens rest : List Token} {left tree : Expression} {op : Binary}

/-! ### The reader without its proofs -/

/-- The expression that is read at a level, and the tokens behind it. -/
def level? (level : Nat) (tokens : List Token) : Option (Expression × List Token) :=
  (readLevel? level tokens).map fun front => (front.expression, front.rest)

/-- An expression with the operations of a level that follow it, and the tokens behind them. -/
def prolong? (level : Nat) (left : Expression) (tokens : List Token) :
    Option (Expression × List Token) :=
  (extend? level left tokens).map fun whole => (whole.expression, whole.rest)

/-- The expression that is read above all levels, and the tokens behind it. -/
def primary? (tokens : List Token) : Option (Expression × List Token) :=
  (readOperand? tokens).map fun front => (front.expression, front.rest)

theorem level?_of_lt (h : level < topLevel) :
    level? level tokens =
      (level? (level + 1) tokens).bind fun first => prolong? level first.1 first.2 := by
  rw [level?, level?, readLevel?, if_pos h]
  cases readLevel? (level + 1) tokens with
  | none => rfl
  | some first =>
    simp only [Option.map_some, Option.bind_some, prolong?]
    cases extend? level first.expression first.rest <;> rfl

theorem level?_of_not_lt (h : ¬level < topLevel) : level? level tokens = primary? tokens := by
  rw [level?, readLevel?, if_neg h]
  rfl

/-- A row ends where no operation of its level follows. -/
theorem prolong?_of_head (h : ∀ token ∈ tokens.head?, ∀ op, Binary.ofToken? token = some op →
    op.level ≠ level) : prolong? level left tokens = some (left, tokens) := by
  cases tokens with
  | nil => rw [prolong?, extend?, Option.map_some]
  | cons token rest =>
    rw [prolong?, extend?]
    cases hop : Binary.ofToken? token with
    | none => rfl
    | some op =>
      simp only [if_neg (h token rfl op hop)]
      rfl

theorem prolong?_of_operator {token : Token} (operator : Binary.ofToken? token = some op) :
    prolong? op.level left (token :: rest) =
      (level? (op.level + 1) rest).bind fun right =>
        prolong? op.level (.binary op left right.1) right.2 := by
  rw [prolong?, extend?, operator]
  simp only [if_true, level?]
  cases readLevel? (op.level + 1) rest with
  | none => rfl
  | some right =>
    simp only [Option.map_some, Option.bind_some, prolong?]
    cases extend? op.level (.binary op left right.expression) right.rest <;> rfl

theorem primary?_numeral {text : List Char} :
    primary? (.numeral text :: rest) = some (.numeral text, rest) := by
  rw [primary?, readOperand?, Option.map_some]

theorem primary?_operand {digits : List Char} :
    primary? (.operand digits :: rest) = some (.operand digits, rest) := by
  rw [primary?, readOperand?, Option.map_some]

theorem primary?_signed {c : Char} {op : Unary} (sign : Unary.ofToken? (.symbol c) = some op) :
    primary? (.symbol c :: rest) = (primary? rest).map fun arg => (.unary op arg.1, arg.2) := by
  have hother : c ≠ '(' := by
    rintro rfl
    cases sign
  rw [primary?, readOperand?, if_neg hother, sign, primary?]
  cases readOperand? rest <;> rfl

theorem primary?_group :
    primary? (.symbol '(' :: rest) =
      (level? 0 rest).bind fun inner =>
        match inner.2 with
        | .symbol ')' :: behind => some (.group inner.1, behind)
        | _ => none := by
  rw [primary?, readOperand?, if_pos rfl, level?]
  cases readLevel? 0 rest with
  | none => rfl
  | some inner =>
    simp only [Option.map_some, Option.bind_some]
    split
    · rename_i hrest
      simp only [hrest, Option.map_some]
    · rename_i hother
      split
      · rename_i hrest
        exact absurd hrest (hother _)
      · rfl

/-! ### Levels of phrases -/

/-- The level at which a phrase is read. -/
def Phrase.rank : Phrase → Nat
  | .or => 0
  | .xor => 1
  | .and => 2
  | .sum => 3
  | .term => 4
  | .unary | .primary => topLevel

/-- The phrase that is read at a level. -/
def Phrase.ofLevel : Nat → Phrase
  | 0 => .or
  | 1 => .xor
  | 2 => .and
  | 3 => .sum
  | 4 => .term
  | _ => .unary

/-- The operators that stand between two operands. -/
def operators : List (Char × Binary) :=
  [('|', .or), ('^', .xor), ('&', .and), ('+', .add), ('-', .sub), ('*', .mul), ('/', .div), ('%', .mod)]

theorem exists_mem_operators {token : Token} (h : Binary.ofToken? token = some op) :
    ∃ c, token = .symbol c ∧ (c, op) ∈ operators := by
  unfold Binary.ofToken? at h
  split at h <;> cases h <;> exact ⟨_, rfl, by decide⟩

theorem mem_signs {c : Char} {op : Unary} (h : Unary.ofToken? (.symbol c) = some op) :
    (c, op) ∈ signs := by
  unfold Unary.ofToken? at h
  split at h <;> cases h <;> rename_i hc <;> cases hc <;> decide

theorem Binary.level_lt (op : Binary) : op.level < topLevel := by
  cases op <;> decide

/-- The rows of a level have parts of the next level and the operators of their own. -/
theorem Phrase.row?_ofLevel : ∀ level < topLevel,
    (Phrase.ofLevel level).row? =
      some (Phrase.ofLevel (level + 1), operators.filter (·.2.level = level)) := by
  decide

theorem Phrase.ofLevel_of_not_lt (h : ¬level < topLevel) : Phrase.ofLevel level = .unary := by
  obtain ⟨above, rfl⟩ : ∃ above, level = above + topLevel := ⟨level - topLevel, by omega⟩
  rfl

theorem Phrase.rank_of_row? {phrase part : Phrase} {operators : List (Char × Binary)}
    (row : phrase.row? = some (part, operators)) :
    phrase.rank < topLevel ∧ part.rank = phrase.rank + 1 ∧
      ∀ o ∈ operators, Binary.ofToken? (.symbol o.1) = some o.2 ∧ o.2.level = phrase.rank := by
  cases phrase <;> cases row <;> decide

/-! ### What is derived is read -/

private theorem prolong?_topLevel : prolong? topLevel left tokens = some (left, tokens) :=
  prolong?_of_head fun _ _ op _ => Nat.ne_of_lt op.level_lt

private theorem level?_topLevel : level? topLevel tokens = primary? tokens :=
  level?_of_not_lt (Nat.lt_irrefl _)

/-- No operation comes first that binds tighter than those of this level. -/
def NoTighter (level : Nat) (tokens : List Token) : Prop :=
  ∀ token ∈ tokens.head?, ∀ op, Binary.ofToken? token = some op → op.level ≤ level

private theorem noTighter_of_operator {token : Token} (operator : Binary.ofToken? token = some op) :
    NoTighter op.level (token :: rest) := by
  intro token h other hother
  cases h
  cases operator.symm.trans hother
  exact Nat.le_refl _

/-- A row of a tighter level ends where no operation of that level can come first. -/
private theorem prolong?_of_noTighter {bound : Nat} (ends : NoTighter bound tokens)
    (tighter : bound < level) : prolong? level left tokens = some (left, tokens) :=
  prolong?_of_head fun token h op hop =>
    Nat.ne_of_lt (Nat.lt_of_le_of_lt (ends token h op hop) tighter)

/-- The reading of a part stops at its end, since what follows binds no tighter than the row. -/
private theorem level?_part {phrase part : Phrase} (next : part.rank = phrase.rank + 1)
    (ends : NoTighter phrase.rank rest)
    (read : NoTighter part.rank rest →
      level? part.rank (tokens ++ rest) = prolong? part.rank tree rest) :
    level? part.rank (tokens ++ rest) = some (tree, rest) := by
  have hless : phrase.rank < part.rank := by omega
  have hends : NoTighter part.rank rest := fun token h op hop =>
    Nat.le_trans (ends token h op hop) (Nat.le_of_lt hless)
  exact (read hends).trans (prolong?_of_noTighter ends hless)

/-- What is derived from a phrase is read at its level, which goes on with what follows, unless an
operation of a tighter level does. -/
theorem level?_of_derives {phrase : Phrase} (derived : Derives phrase tree tokens) (rest : List Token)
    (ends : NoTighter phrase.rank rest) :
    level? phrase.rank (tokens ++ rest) = prolong? phrase.rank tree rest := by
  induction derived generalizing rest with
  | part row only ih =>
    obtain ⟨hlevel, hpart, -⟩ := Phrase.rank_of_row? row
    rw [level?_of_lt hlevel, ← hpart, level?_part hpart ends (ih rest), Option.bind_some]
  | @join phrase part operators left right front behind c op row first operator last ihfirst ihlast =>
    obtain ⟨hlevel, hpart, hoperators⟩ := Phrase.rank_of_row? row
    obtain ⟨hop, hrank⟩ : Binary.ofToken? (.symbol c) = some op ∧ op.level = phrase.rank :=
      hoperators _ operator
    rw [List.append_assoc, List.cons_append, ihfirst _ (hrank ▸ noTighter_of_operator hop), ← hrank,
      prolong?_of_operator hop, hrank, ← hpart, level?_part hpart ends (ihlast rest), Option.bind_some]
  | @signed c op arg tokens sign behind ih =>
    have hsign : ∀ s ∈ signs, Unary.ofToken? (.symbol s.1) = some s.2 := by decide
    have harg : primary? (tokens ++ rest) = some (arg, rest) := by
      rw [← level?_topLevel, ← prolong?_topLevel]
      exact ih rest ends
    rw [Phrase.rank, level?_topLevel, prolong?_topLevel, List.cons_append, primary?_signed (hsign _ sign),
      harg, Option.map_some]
  | primary only ih => exact ih rest ends
  | @group inner tokens inside ih =>
    have hclose (level : Nat) : NoTighter level (.symbol ')' :: rest) := by
      intro token h op hop
      cases h
      cases hop
    have hstopped : prolong? 0 inner (.symbol ')' :: rest) = some (inner, .symbol ')' :: rest) := by
      refine prolong?_of_head fun token h op hop => ?_
      cases h
      cases hop
    have hinner : level? 0 (tokens ++ .symbol ')' :: rest) = some (inner, .symbol ')' :: rest) :=
      (ih _ (hclose _)).trans hstopped
    rw [Phrase.rank, level?_topLevel, prolong?_topLevel, List.cons_append, List.append_assoc,
      List.singleton_append, primary?_group, hinner]
    rfl
  | operand digits =>
    rw [Phrase.rank, level?_topLevel, prolong?_topLevel, List.singleton_append, primary?_operand]
  | numeral text =>
    rw [Phrase.rank, level?_topLevel, prolong?_topLevel, List.singleton_append, primary?_numeral]

/-! ### What is read is derived

These proofs recurse as the reader does, with its measure. -/

private theorem level?_shorter (h : level? level tokens = some (tree, rest)) :
    rest.length < tokens.length := by
  obtain ⟨front, -, hfront⟩ := Option.map_eq_some_iff.1 h
  cases hfront
  exact front.shorter

private theorem primary?_nil : primary? [] = none := by
  rw [primary?, readOperand?, Option.map_none]

/-- A symbol that is read first is a parenthesis or a sign. -/
private theorem primary?_symbol {c : Char} (h : primary? (.symbol c :: tokens) = some (tree, rest)) :
    c = '(' ∨ ∃ op, Unary.ofToken? (.symbol c) = some op := by
  by_cases hopen : c = '('
  · exact .inl hopen
  · rw [primary?, readOperand?, if_neg hopen] at h
    cases hsign : Unary.ofToken? (.symbol c) with
    | none =>
      rw [hsign] at h
      cases h
    | some op => exact .inr ⟨op, rfl⟩

/-- A row ends, or an operation of its level comes first. -/
private theorem head_or_operator (level : Nat) (tokens : List Token) :
    (∀ token ∈ tokens.head?, ∀ op, Binary.ofToken? token = some op → op.level ≠ level) ∨
      ∃ c op behind, tokens = .symbol c :: behind ∧ Binary.ofToken? (.symbol c) = some op ∧
        (c, op) ∈ operators ∧ op.level = level := by
  cases tokens with
  | nil => exact .inl fun token h => absurd h (by simp)
  | cons token behind =>
    by_cases h : ∃ op, Binary.ofToken? token = some op ∧ op.level = level
    · obtain ⟨op, hop, hlevel⟩ := h
      obtain ⟨c, rfl, hmem⟩ := exists_mem_operators hop
      exact .inr ⟨c, op, behind, rfl, hop, hmem, hlevel⟩
    · refine .inl fun other hother op hop hlevel => h ?_
      cases hother
      exact ⟨op, hop, hlevel⟩

mutual

/-- What is read at a level is derived from its phrase. -/
theorem derives_of_level? {level : Nat} {tokens rest : List Token} {tree : Expression}
    (h : level? level tokens = some (tree, rest)) :
    ∃ front, tokens = front ++ rest ∧ Derives (.ofLevel level) tree front := by
  by_cases hlevel : level < topLevel
  · rw [level?_of_lt hlevel] at h
    obtain ⟨⟨first, behind⟩, hfirst, hwhole⟩ := Option.bind_eq_some_iff.1 h
    have hshorter := level?_shorter hfirst
    obtain ⟨front, hfront, hderived⟩ := derives_of_level? hfirst
    obtain ⟨others, hothers, hrow⟩ :=
      derives_of_prolong? hlevel (.part (Phrase.row?_ofLevel level hlevel) hderived) hwhole
    exact ⟨front ++ others, by rw [hfront, List.append_assoc, ← hothers], hrow⟩
  · rw [level?_of_not_lt hlevel] at h
    rw [Phrase.ofLevel_of_not_lt hlevel]
    exact derives_of_primary? h
termination_by 7 * tokens.length + (1 + (topLevel - level))
decreasing_by all_goals simp only [topLevel] at *; omega

/-- What a row was derived from goes on in front of what follows it. -/
theorem derives_of_prolong? {level : Nat} {tokens rest done : List Token} {left tree : Expression}
    (hlevel : level < topLevel) (derived : Derives (.ofLevel level) left done)
    (h : prolong? level left tokens = some (tree, rest)) :
    ∃ front, tokens = front ++ rest ∧ Derives (.ofLevel level) tree (done ++ front) := by
  rcases head_or_operator level tokens with hend | ⟨c, op, behind, htokens, hop, hmem, hrank⟩
  · rw [prolong?_of_head hend] at h
    cases h
    exact ⟨[], rfl, (List.append_nil done).symm ▸ derived⟩
  · have hoperator : (c, op) ∈ operators.filter (·.2.level = level) :=
      List.mem_filter.2 ⟨hmem, decide_eq_true hrank⟩
    rw [htokens, ← hrank, prolong?_of_operator hop, hrank] at h
    obtain ⟨⟨right, others⟩, hright, hwhole⟩ := Option.bind_eq_some_iff.1 h
    have hlength := congrArg List.length htokens
    have hshorter := level?_shorter hright
    obtain ⟨front, hfront, hlast⟩ := derives_of_level? hright
    obtain ⟨next, hnext, hrow⟩ := derives_of_prolong? hlevel
      (.join (Phrase.row?_ofLevel level hlevel) derived hoperator hlast) hwhole
    refine ⟨.symbol c :: (front ++ next), ?_, ?_⟩
    · rw [htokens, hfront, List.cons_append, List.append_assoc, ← hnext]
    · rwa [List.append_assoc, List.cons_append] at hrow
termination_by 7 * tokens.length
decreasing_by all_goals simp only [topLevel, List.length_cons] at *; omega

/-- What is read above all levels is derived from the tightest phrases. -/
theorem derives_of_primary? {tokens rest : List Token} {tree : Expression}
    (h : primary? tokens = some (tree, rest)) :
    ∃ front, tokens = front ++ rest ∧ Derives .unary tree front := by
  match tokens with
  | [] =>
    rw [primary?_nil] at h
    cases h
  | .numeral text :: behind =>
    cases primary?_numeral.symm.trans h
    exact ⟨[.numeral text], rfl, .primary (.numeral text)⟩
  | .operand digits :: behind =>
    cases primary?_operand.symm.trans h
    exact ⟨[.operand digits], rfl, .primary (.operand digits)⟩
  | .symbol c :: behind =>
    rcases primary?_symbol h with rfl | ⟨op, hop⟩
    · rw [primary?_group] at h
      obtain ⟨⟨inner, others⟩, hinner, hclose⟩ := Option.bind_eq_some_iff.1 h
      obtain ⟨front, rfl, hderived⟩ := derives_of_level? hinner
      split at hclose
      · rename_i hothers
        cases hclose
        refine ⟨.symbol '(' :: (front ++ [.symbol ')']), ?_, .primary (.group hderived)⟩
        simp only at hothers
        rw [hothers]
        simp
      · cases hclose
    · rw [primary?_signed hop] at h
      obtain ⟨⟨arg, others⟩, harg, htree⟩ := Option.map_eq_some_iff.1 h
      cases htree
      obtain ⟨front, rfl, hderived⟩ := derives_of_primary? harg
      exact ⟨.symbol c :: front, rfl, .signed (mem_signs hop) hderived⟩
termination_by 7 * tokens.length
decreasing_by all_goals simp only [topLevel, List.length_cons] at *; omega

end

/-- The expression that is read from tokens as a whole is their parse tree. -/
theorem ofTokens?_eq_some_iff : ofTokens? tokens = some tree ↔ Derives .or tree tokens := by
  have hread : ofTokens? tokens = some tree ↔ level? 0 tokens = some (tree, []) := by
    rw [ofTokens?, level?]
    cases readLevel? 0 tokens with
    | none => simp
    | some front =>
      obtain ⟨expression, rest, shorter⟩ := front
      cases rest <;> simp
  rw [hread]
  constructor
  · intro h
    obtain ⟨front, rfl, hderived⟩ := derives_of_level? h
    rwa [List.append_nil]
  · intro h
    have hlevel : level? 0 (tokens ++ []) = prolong? 0 tree [] :=
      level?_of_derives h [] fun token hmem => absurd hmem (by simp)
    rw [← List.append_nil tokens, hlevel]
    exact prolong?_of_head fun token hmem => absurd hmem (by simp)

end Horn.Expression
