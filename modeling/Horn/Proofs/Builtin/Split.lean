import Horn.Proofs.Builtin.Evaluation
import Horn.Proofs.Text.Cut
import Mathlib.Data.List.DropRight

/-!
Texts that are split and joined.

A text is cut at every occurrence of a separator, from left to right, and the empty pieces at its end are
dropped. Main statement: the pieces that are left join to the text, but for the separators behind them;
and pieces without the separator, the last of which is not empty, come back when they are joined and
split.
-/

set_option autoImplicit false
set_option relaxedAutoImplicit false

namespace Horn.Builtin

/-- The pieces of a text between the occurrences of a separator that come one after the other. -/
inductive PiecesOf (separator : List Char) : List Char → List (List Char) → Prop
  | whole {text : List Char} : ¬separator <:+: text → PiecesOf separator text [text]
  | cut {text before behind : List Char} {pieces : List (List Char)} :
      Text.IsFirstCut separator text before behind → PiecesOf separator behind pieces →
      PiecesOf separator text (before :: pieces)

section Pieces

variable {separator text : List Char} {pieces : List (List Char)}

theorem PiecesOf.ne_nil (h : PiecesOf separator text pieces) : pieces ≠ [] := by
  cases h <;> exact List.cons_ne_nil _ _

/-- Pieces are those of one text only. -/
theorem PiecesOf.intercalate_eq (h : PiecesOf separator text pieces) :
    separator.intercalate pieces = text := by
  induction h with
  | whole _ => exact List.intercalate_singleton
  | cut hcut hpieces ih => rw [List.intercalate_cons_of_ne_nil hpieces.ne_nil, ih, hcut.whole]

theorem PiecesOf.not_infix (h : PiecesOf separator text pieces) (nonempty : separator ≠ []) :
    ∀ piece ∈ pieces, ¬separator <:+: piece := by
  induction h with
  | whole hinfix => exact List.forall_mem_singleton.2 hinfix
  | cut hcut _ ih => exact List.forall_mem_cons.2 ⟨hcut.not_infix nonempty, ih⟩

/-- A text has pieces in one way only. -/
theorem PiecesOf.unique {others : List (List Char)} (h : PiecesOf separator text pieces)
    (k : PiecesOf separator text others) : pieces = others := by
  have occurs : ∀ {text before behind : List Char}, Text.IsFirstCut separator text before behind →
      separator <:+: text := fun hcut => ⟨_, _, hcut.whole.symm⟩
  induction h generalizing others with
  | whole hinfix =>
    cases k with
    | whole _ => rfl
    | cut hcut _ => exact absurd (occurs hcut) hinfix
  | cut hcut _ ih =>
    cases k with
    | whole hinfix => exact absurd (occurs hcut) hinfix
    | cut hcut' hothers =>
      obtain ⟨rfl, rfl⟩ := hcut.unique hcut'
      rw [ih hothers]

theorem exists_piecesOf (nonempty : separator ≠ []) (done : List (List Char)) (text : List Char) :
    ∃ pieces, piecesOnto separator nonempty done text = done.reverse ++ pieces ∧
      PiecesOf separator text pieces := by
  induction done, text using piecesOnto.induct separator nonempty with
  | case1 done text hnone =>
    refine ⟨[text], ?_, .whole (Text.not_infix_of_cut? hnone)⟩
    unfold piecesOnto
    split
    · rw [List.reverse_cons]
    · rename_i hsome
      rw [hnone] at hsome
      cases hsome
  | case2 done text before behind hcut ih =>
    obtain ⟨pieces, hpieces, hof⟩ := ih
    refine ⟨before :: pieces, ?_, .cut (Text.isFirstCut_of_cut? hcut) hof⟩
    unfold piecesOnto
    split
    · rename_i hnone
      rw [hcut] at hnone
      cases hnone
    · rename_i hsome
      rw [hcut] at hsome
      cases hsome
      rw [hpieces, List.reverse_cons, List.append_assoc, List.singleton_append]

theorem piecesOf_pieces (nonempty : separator ≠ []) (text : List Char) :
    PiecesOf separator text (Builtin.pieces separator text) := by
  obtain ⟨pieces, hpieces, hof⟩ := exists_piecesOf nonempty [] text
  rw [Builtin.pieces, dif_neg nonempty, hpieces]
  exact hof

/-- Pieces without a character are the pieces of the text that they make with the character between. -/
theorem piecesOf_intercalate {c : Char} (nonempty : pieces ≠ []) (h : ∀ piece ∈ pieces, c ∉ piece) :
    PiecesOf [c] ([c].intercalate pieces) pieces := by
  induction pieces with
  | nil => exact absurd rfl nonempty
  | cons piece pieces ih =>
    obtain ⟨hpiece, hpieces⟩ := List.forall_mem_cons.1 h
    cases pieces with
    | nil =>
      rw [List.intercalate_singleton]
      exact .whole fun hinfix => hpiece ((List.singleton_infix_iff _ _).1 hinfix)
    | cons next pieces =>
      rw [List.intercalate_cons_cons, List.append_assoc, List.singleton_append]
      exact .cut (Text.isFirstCut_of_notMem hpiece) (ih (List.cons_ne_nil _ _) hpieces)

/-! ### Empty pieces at the end -/

theorem dropEmptyEnd_eq (pieces : List (List Char)) :
    dropEmptyEnd pieces = pieces.rdropWhile List.isEmpty :=
  rfl

theorem getLast?_dropEmptyEnd (pieces : List (List Char)) : (dropEmptyEnd pieces).getLast? ≠ some [] := by
  rw [dropEmptyEnd_eq]
  intro h
  have hne : pieces.rdropWhile List.isEmpty ≠ [] := by
    intro hnil
    rw [hnil] at h
    cases h
  rw [List.getLast?_eq_some_getLast hne, Option.some.injEq] at h
  refine List.rdropWhile_last_not List.isEmpty pieces hne ?_
  rw [h]
  rfl

theorem dropEmptyEnd_eq_self (h : pieces.getLast? ≠ some []) : dropEmptyEnd pieces = pieces := by
  rw [dropEmptyEnd_eq, List.rdropWhile_eq_self_iff]
  intro hne hempty
  rw [List.getLast?_eq_some_getLast hne, List.isEmpty_iff.1 hempty] at h
  exact h rfl

theorem exists_eq_dropEmptyEnd (pieces : List (List Char)) :
    ∃ count, pieces = dropEmptyEnd pieces ++ List.replicate count [] := by
  refine ⟨(pieces.rtakeWhile List.isEmpty).length, ?_⟩
  have hempty : pieces.rtakeWhile List.isEmpty =
      List.replicate (pieces.rtakeWhile List.isEmpty).length [] :=
    List.eq_replicate_iff.2 ⟨rfl, fun piece h => List.isEmpty_iff.1 (List.mem_rtakeWhile_imp h)⟩
  rw [dropEmptyEnd_eq, ← hempty, List.rdropWhile_append_rtakeWhile]

/-- Each empty piece behind others adds a separator. -/
theorem exists_intercalate_append_replicate (separator : List Char) (pieces : List (List Char))
    (count : Nat) :
    ∃ copies, separator.intercalate (pieces ++ List.replicate count []) =
      separator.intercalate pieces ++ (List.replicate copies separator).flatten := by
  have concat_nil : ∀ pieces : List (List Char), pieces ≠ [] →
      separator.intercalate (pieces ++ [[]]) = separator.intercalate pieces ++ separator := by
    intro pieces hne
    induction pieces with
    | nil => exact absurd rfl hne
    | cons piece pieces ih =>
      cases pieces with
      | nil => simp
      | cons next pieces =>
        rw [List.cons_append, List.intercalate_cons_of_ne_nil (by simp), ih (List.cons_ne_nil _ _),
          List.intercalate_cons_cons]
        simp only [List.append_assoc]
  induction count with
  | zero => exact ⟨0, by simp⟩
  | succ count ih =>
    obtain ⟨copies, hcopies⟩ := ih
    rw [List.replicate_succ', ← List.append_assoc]
    by_cases hnil : pieces ++ List.replicate count [] = []
    · obtain ⟨rfl, -⟩ := List.append_eq_nil_iff.1 hnil
      exact ⟨0, by rw [hnil]; simp⟩
    · refine ⟨copies + 1, ?_⟩
      rw [concat_nil _ hnil, hcopies, List.append_assoc, List.replicate_succ', List.flatten_concat]

end Pieces

/-! ### Splitting and joining texts -/

theorem areFiniteItems_texts (parts : List String) : areFiniteItems (parts.map .text) = true := by
  induction parts with
  | nil => rfl
  | cons part parts ih => exact ih

/-- What a text is split into. -/
def partsOf (separator text : String) : List String :=
  (dropEmptyEnd (pieces separator.toList text.toList)).map String.ofList

theorem evaluate_split (r : Registry) (ambient : Ambient) (text separator : String) :
    r.evaluate "split" [.text text, .text separator] ambient =
      (some (.list ((partsOf separator text).map .text)), ambient) := by
  have hsplit : split [.text text, .text separator] =
      some (.list ((partsOf separator text).map .text)) := by
    rw [partsOf, List.map_map]
    rfl
  have hfinite : isFiniteLiteral (.list ((partsOf separator text).map .text)) = true :=
    areFiniteItems_texts _
  rw [Registry.evaluate_compute ambient rfl, hsplit, Option.filter_some, if_pos hfinite]

theorem evaluate_join (r : Registry) (ambient : Ambient) (parts : List String) (separator : String) :
    r.evaluate "join" [.list (parts.map .text), .text separator] ambient =
      (some (.text (separator.intercalate parts)), ambient) := by
  have hjoin : join [.list (parts.map .text), .text separator] =
      some (.text (separator.intercalate ((parts.map .text).map Literal.plain))) := rfl
  have hplain : (parts.map Literal.text).map Literal.plain = parts := by
    rw [List.map_map]
    exact List.map_id _
  exact Registry.evaluate_text ambient rfl (by rw [hjoin, hplain])

theorem toList_partsOf (separator text : String) :
    (partsOf separator text).map String.toList = dropEmptyEnd (pieces separator.toList text.toList) := by
  rw [partsOf, List.map_map]
  exact (List.map_congr_left fun piece _ => String.toList_ofList).trans (List.map_id _)

theorem getLast?_partsOf (separator text : String) : (partsOf separator text).getLast? ≠ some "" := by
  intro h
  refine getLast?_dropEmptyEnd (pieces separator.toList text.toList) ?_
  rw [← toList_partsOf, List.getLast?_map, h]
  rfl

/-- The parts of a text, with the separator between them and so often behind them as empty pieces were
dropped. -/
theorem exists_eq_intercalate_partsOf {separator : String} (nonempty : separator ≠ "") (text : String) :
    (∀ part ∈ partsOf separator text, ¬separator.toList <:+: part.toList) ∧
      ∃ copies, text = separator.intercalate (partsOf separator text) ++
        String.join (List.replicate copies separator) := by
  have hne : separator.toList ≠ [] := fun h => nonempty (String.toList_inj.1 h)
  have hpieces := piecesOf_pieces hne text.toList
  obtain ⟨count, hcount⟩ := exists_eq_dropEmptyEnd (pieces separator.toList text.toList)
  constructor
  · intro part hpart
    apply hpieces.not_infix hne
    rw [hcount]
    refine List.mem_append_left _ ?_
    rw [← toList_partsOf]
    exact List.mem_map_of_mem hpart
  · obtain ⟨copies, hcopies⟩ := exists_intercalate_append_replicate separator.toList
      (dropEmptyEnd (pieces separator.toList text.toList)) count
    refine ⟨copies, String.toList_inj.1 ?_⟩
    rw [String.toList_append, String.toList_intercalate, toList_partsOf, String.toList_join,
      List.flatMap_def, List.map_replicate, ← hcopies, ← hcount, hpieces.intercalate_eq]

/-- Without a separator every character is a part. -/
theorem partsOf_empty (text : String) :
    "".intercalate (partsOf "" text) = text ∧ ∀ part ∈ partsOf "" text, part.length = 1 := by
  have hpieces : pieces "".toList text.toList = text.toList.map fun c => [c] := dif_pos rfl
  have hdrop : dropEmptyEnd (pieces "".toList text.toList) = text.toList.map fun c => [c] := by
    rw [hpieces]
    apply dropEmptyEnd_eq_self
    intro h
    rw [List.getLast?_map] at h
    obtain ⟨c, -, hc⟩ := Option.map_eq_some_iff.1 h
    exact absurd hc (List.cons_ne_nil _ _)
  have hflat : ∀ cs : List Char, "".toList.intercalate (cs.map fun c => [c]) = cs := by
    intro cs
    induction cs with
    | nil => rfl
    | cons c cs ih =>
      cases cs with
      | nil => rfl
      | cons d cs => exact congrArg (c :: ·) ih
  constructor
  · rw [← String.toList_inj, String.toList_intercalate, toList_partsOf, hdrop, hflat]
  · intro part hpart
    rw [partsOf, hdrop, List.map_map] at hpart
    obtain ⟨c, -, rfl⟩ := List.mem_map.1 hpart
    exact String.length_ofList

/-- Parts of which none has the separator come back, if the last one is not empty. -/
theorem partsOf_intercalate {c : Char} {parts : List String} (h : ∀ part ∈ parts, c ∉ part.toList)
    (last : parts.getLast? ≠ some "") :
    partsOf (String.singleton c) ((String.singleton c).intercalate parts) = parts := by
  have hnonempty : [c] ≠ [] := List.cons_ne_nil _ _
  have hdrop : dropEmptyEnd (pieces [c] ([c].intercalate (parts.map String.toList))) =
      parts.map String.toList := by
    cases parts with
    | nil =>
      have hempty : PiecesOf [c] [] [[]] := .whole (by simp)
      rw [List.map_nil, List.intercalate_nil, (piecesOf_pieces hnonempty []).unique hempty]
      rfl
    | cons part parts =>
      have hpieces : PiecesOf [c] ([c].intercalate ((part :: parts).map String.toList))
          ((part :: parts).map String.toList) :=
        piecesOf_intercalate (List.cons_ne_nil _ _) (List.forall_mem_map.2 h)
      rw [(piecesOf_pieces hnonempty _).unique hpieces]
      apply dropEmptyEnd_eq_self
      intro hlast
      rw [List.getLast?_map] at hlast
      obtain ⟨text, htext, hempty⟩ := Option.map_eq_some_iff.1 hlast
      exact last (htext.trans (congrArg some (String.toList_inj.1 hempty)))
  rw [partsOf, String.toList_intercalate, String.toList_singleton, hdrop, List.map_map]
  exact (List.map_congr_left fun part _ => String.ofList_toList).trans (List.map_id _)

/-- A text is split into parts that do not end in an empty one. Joined again they are the text, but for
separators at its end, and no part contains the separator; if that is empty, the parts are the
characters. Conversely, parts without the character that is put between them come back, if the last one is
not empty. -/
theorem split_join (r : Registry) (ambient : Ambient) :
    (∀ text separator : String, ∃ (parts : List String) (joined : String),
        r.evaluate "split" [.text text, .text separator] ambient =
            (some (.list (parts.map .text)), ambient) ∧
          r.evaluate "join" [.list (parts.map .text), .text separator] ambient =
            (some (.text joined), ambient) ∧
          parts.getLast? ≠ some "" ∧
          (separator ≠ "" → (∀ part ∈ parts, ¬separator.toList <:+: part.toList) ∧
            ∃ copies, text = joined ++ String.join (List.replicate copies separator)) ∧
          (separator = "" → joined = text ∧ ∀ part ∈ parts, part.length = 1)) ∧
      ∀ (c : Char) (parts : List String), (∀ part ∈ parts, c ∉ part.toList) →
        parts.getLast? ≠ some "" →
          ∃ joined : String,
            r.evaluate "join" [.list (parts.map .text), .text (String.singleton c)] ambient =
                (some (.text joined), ambient) ∧
              r.evaluate "split" [.text joined, .text (String.singleton c)] ambient =
                (some (.list (parts.map .text)), ambient) := by
  constructor
  · intro text separator
    refine ⟨partsOf separator text, separator.intercalate (partsOf separator text),
      evaluate_split r ambient text separator, evaluate_join r ambient _ separator,
      getLast?_partsOf separator text, ?_, ?_⟩
    · intro nonempty
      exact exists_eq_intercalate_partsOf nonempty text
    · rintro rfl
      exact partsOf_empty text
  · intro c parts hparts hlast
    refine ⟨(String.singleton c).intercalate parts, evaluate_join r ambient parts _, ?_⟩
    rw [evaluate_split, partsOf_intercalate hparts hlast]

/-- Two commas in a row leave an empty part between them, which is joined and split again. -/
theorem split_join_twoCommas :
    ((∀ part ∈ ["a", "", "b"], ',' ∉ part.toList) ∧ ["a", "", "b"].getLast? ≠ some "") ∧
      ∃ joined : String,
        (Registry.mk 8).evaluate "join" [.list (["a", "", "b"].map .text), .text (String.singleton ',')]
            default = (some (.text joined), default) ∧
          (Registry.mk 8).evaluate "split" [.text joined, .text (String.singleton ',')] default =
            (some (.list (["a", "", "b"].map .text)), default) := by
  have hparts : ∀ part ∈ ["a", "", "b"], ',' ∉ part.toList := by decide
  have hlast : ["a", "", "b"].getLast? ≠ some "" := by decide
  exact ⟨⟨hparts, hlast⟩, (split_join ⟨8⟩ default).2 ',' ["a", "", "b"] hparts hlast⟩

end Horn.Builtin
