import Mathlib.Data.List.Forall2
import MatrixCalc.Proofs.Text.Bracketed
import MatrixCalc.Proofs.Text.Guarded
import MatrixCalc.Proofs.Text.ReadBack
import MatrixCalc.Proofs.Text.Rows

/-!
# Bracketed text read back

The bracketed text of a matrix is cut into the tokens of its entries with spaces and row ends
between them. If all entries are written in full, these tokens are a literal with the texts of the
entries as its numerals, so the text is read as that matrix again; but an exponent is a word, which
no literal may hold, and the text is refused at the first one (`evaluate_bracketed_text`).

§1 the tokens of the text · §2 the numerals of the tokens · §3 words in the way · §4 matrices
-/

namespace MatrixCalc

/-! ## §1 The tokens of the text -/

namespace Token

/-- The characters of a row between its row ends: a space before each entry and one at the end. -/
def rowChars (entries : List (List Char)) : List Char := entries.flatMap (' ' :: ·) ++ [' ']

def rowTokens (entries : List (List Token)) : List Token :=
  entries.flatMap (.space :: ·) ++ [.space]

theorem lexes_row {entries : List (List Char)} {tokens : List (List Token)}
    (h : List.Forall₂ IsChunk entries tokens) : Lexes (rowChars entries) (rowTokens tokens) := by
  have hspace : Lexes [' '] [.space] := by
    have hcut : cut? ' ' [] = some ⟨.space, 1, []⟩ := rfl
    exact .cons hcut .nil
  induction h with
  | nil => exact hspace
  | cons hchunk _ ih =>
    rename_i cs ts entries tokens _
    have hbefore : Boundary [' '] cs := by
      intro c hc d hd
      obtain rfl : ' ' = c := by simpa using hc
      simp [sameRun, hchunk.unspaced d (List.mem_of_mem_head? hd),
        show isLetter ' ' = false from rfl, show isNumeric ' ' = false from rfl]
    have hafter : Boundary cs (rowChars entries) := by
      intro c hc d hd
      have hd : ' ' = d := by
        cases entries <;> simpa [rowChars] using hd
      subst hd
      simp [sameRun, hchunk.unspaced c (List.mem_of_getLast? hc),
        show isLetter ' ' = false from rfl, show isNumeric ' ' = false from rfl]
    have hfirst : Boundary [' '] (cs ++ rowChars entries) := by
      obtain ⟨d, ds, rfl⟩ := List.exists_cons_of_ne_nil hchunk.ne_nil
      exact hbefore
    simpa [rowChars, rowTokens] using hspace.append (hchunk.lexes.append ih hafter) hfirst

def bodyChars (rows : List (List (List Char))) : List Char := [';'].intercalate (rows.map rowChars)

def bodyTokens (rows : List (List (List Token))) : List Token :=
  [.rowEnd].intercalate (rows.map rowTokens)

theorem lexes_body {rows : List (List (List Char))} {tokens : List (List (List Token))}
    (h : List.Forall₂ (List.Forall₂ IsChunk) rows tokens) :
    Lexes (bodyChars rows) (bodyTokens tokens) := by
  have hend : Lexes [';'] [.rowEnd] := by
    have hcut : cut? ';' [] = some ⟨.rowEnd, 1, []⟩ := rfl
    exact .cons hcut .nil
  induction h with
  | nil => exact .nil
  | cons hrow hrest ih =>
    replace hrow := lexes_row hrow
    cases hrest with
    | nil => simpa [bodyChars, bodyTokens] using hrow
    | cons hnext hlater =>
      have hrowEnd := hend.append ih (boundary_of_last rfl [] _)
      simpa [bodyChars, bodyTokens] using hrow.append hrowEnd (boundary_of_first rfl _ _)

theorem lexes_literal {cs : List Char} {ts : List Token} (h : Lexes cs ts) :
    Lexes ('[' :: (cs ++ [']'])) (.literalStart :: (ts ++ [.literalEnd])) := by
  have hstart : Lexes ['['] [.literalStart] := by
    have hcut : cut? '[' [] = some ⟨.literalStart, 1, []⟩ := rfl
    exact .cons hcut .nil
  have hend : Lexes [']'] [.literalEnd] := by
    have hcut : cut? ']' [] = some ⟨.literalEnd, 1, []⟩ := rfl
    exact .cons hcut .nil
  exact hstart.append (h.append hend (boundary_of_first rfl _ _)) (boundary_of_last rfl [] _)

/-! ## §2 The numerals of the tokens -/

theorem numerals_digits_empty (row : List Token) : numerals (.digits "" :: row) = numerals row := by
  obtain ⟨ts, later, h⟩ := List.exists_cons_of_ne_nil (List.splitOn_ne_nil Token.space row)
  simp [numerals, List.splitOn_cons_eq_if_modifyHead, h, text]

/-- A plain numeral that a space follows is one numeral. -/
theorem numerals_ofPlain {s : String} (h : Numeral.isPlain s = true) (row : List Token) :
    numerals (ofPlain s.toList ++ .space :: row) = s :: numerals row := by
  have hne : s ≠ "" := by
    rintro rfl
    cases h
  have hone : numeral s = [s] := if_neg (by simpa using hne)
  unfold ofPlain
  split
  next ds hs =>
    have htext : "-" ++ String.ofList ds = s := by
      rw [← String.ofList_toList (s := s), hs, String.ofList_cons]
      rfl
    rw [← numerals_digits_empty, List.cons_append, numerals_digits_cons "" (by simp),
      List.cons_append, List.nil_append, numerals_digits_cons _ (by simp), numerals_digits_space]
    have hjoin : "" ++ Token.minus.text ++ (Token.digits (String.ofList ds)).text = s := by
      rw [String.empty_append]
      exact htext
    rw [hjoin, hone]
    rfl
  next =>
    rw [String.ofList_toList, List.cons_append, List.nil_append, numerals_digits_space, hone]
    rfl

theorem rowTokens_cons (ts : List Token) (entries : List (List Token)) :
    rowTokens (ts :: entries) = .space :: (ts ++ rowTokens entries) := by
  simp [rowTokens]

theorem numerals_rowTokens {texts : List String} (h : ∀ s ∈ texts, Numeral.isPlain s = true) :
    numerals (rowTokens (texts.map fun s => ofPlain s.toList)) = texts := by
  induction texts with
  | nil => rfl
  | cons s texts ih =>
    obtain ⟨hs, htexts⟩ := List.forall_mem_cons.1 h
    obtain ⟨row, hrow⟩ :
        ∃ row, rowTokens (texts.map fun s => ofPlain s.toList) = .space :: row := by
      cases texts with
      | nil => exact ⟨_, rfl⟩
      | cons t texts => exact ⟨_, rowTokens_cons _ _⟩
    have hrest := ih htexts
    rw [hrow, numerals_space] at hrest
    rw [List.map_cons, rowTokens_cons, numerals_space, hrow, numerals_ofPlain hs, hrest]

def plainTokens (rows : List (List String)) : List (List (List Token)) :=
  rows.map (List.map fun s => ofPlain s.toList)

theorem isPiece_rowTokens {texts : List String} :
    ∀ t ∈ rowTokens (texts.map fun s => ofPlain s.toList), t.isPiece = true ∧ t ≠ .rowEnd := by
  have hplain (cs : List Char) : ∀ t ∈ ofPlain cs, t.isPiece = true ∧ t ≠ .rowEnd := by
    unfold ofPlain
    split <;> simp [isPiece]
  intro t ht
  rcases List.mem_append.1 ht with ht | ht
  · obtain ⟨ts, hts, ht⟩ := List.mem_flatMap.1 ht
    obtain ⟨s, -, rfl⟩ := List.mem_map.1 hts
    rcases List.mem_cons.1 ht with rfl | ht
    · exact ⟨rfl, by simp⟩
    · exact hplain _ t ht
  · rw [List.mem_singleton.1 ht]
    exact ⟨rfl, by simp⟩

theorem mem_bodyTokens {t : Token} (ht : t ≠ .rowEnd) {rows : List (List (List Token))} :
    t ∈ bodyTokens rows ↔ ∃ row ∈ rows, t ∈ rowTokens row := by
  induction rows with
  | nil => simp [bodyTokens]
  | cons row rows ih =>
    cases rows with
    | nil => simp [bodyTokens]
    | cons next rows =>
      unfold bodyTokens at ih ⊢
      rw [List.map_cons, List.map_cons, List.intercalate_cons_cons, ← List.map_cons,
        List.mem_append, List.mem_append, ih, List.mem_singleton, List.exists_mem_cons_iff]
      simp [ht]

theorem isPiece_bodyTokens (rows : List (List String)) :
    ∀ t ∈ bodyTokens (plainTokens rows), t.isPiece = true := by
  intro t ht
  by_cases hrow : t = .rowEnd
  · rw [hrow]
    rfl
  obtain ⟨entries, hentries, ht⟩ := (mem_bodyTokens hrow).1 ht
  obtain ⟨texts, -, rfl⟩ := List.mem_map.1 hentries
  exact (isPiece_rowTokens t ht).1

theorem rows_bodyTokens {rows : List (List String)} (hne : rows ≠ [])
    (h : ∀ texts ∈ rows, ∀ s ∈ texts, Numeral.isPlain s = true) :
    Token.rows (bodyTokens (plainTokens rows)) = rows := by
  have hsplit : (bodyTokens (plainTokens rows)).splitOn .rowEnd =
      (plainTokens rows).map rowTokens := by
    refine List.splitOn_intercalate _ ?_ (by simpa [plainTokens] using hne)
    intro row hrow hmem
    obtain ⟨entries, hentries, rfl⟩ := List.mem_map.1 hrow
    obtain ⟨texts, -, rfl⟩ := List.mem_map.1 hentries
    exact (isPiece_rowTokens _ hmem).2 rfl
  rw [Token.rows, hsplit, plainTokens, List.map_map, List.map_map]
  refine (List.map_congr_left fun texts htexts => ?_).trans (List.map_id rows)
  exact numerals_rowTokens (h texts htexts)

theorem isBody_bodyTokens {rows : List (List String)} {cols : Nat} (hne : rows ≠ [])
    (hcols : 0 < cols) (hlength : ∀ texts ∈ rows, texts.length = cols)
    (h : ∀ texts ∈ rows, ∀ s ∈ texts, Numeral.isPlain s = true) :
    IsBody cols (bodyTokens (plainTokens rows)) := by
  have hrows := rows_bodyTokens hne h
  refine ⟨isPiece_bodyTokens rows, hcols, fun row hrow => hlength row (hrows ▸ hrow),
    fun s hs => ?_⟩
  rw [hrows] at hs
  obtain ⟨texts, htexts, hs⟩ := List.mem_flatten.1 hs
  exact h texts htexts s hs

/-! ## §3 Words in the way -/

/-- `StopsAt w ts us`: the tokens `ts` go as `us` do up to the word `w`, and no fewer come. -/
def StopsAt (w : String) (ts us : List Token) : Prop :=
  ∃ front back later, ts = front ++ .word w :: back ∧ us = front ++ later ∧
    later.length ≤ back.length

/-- `Follows w ts us`: the tokens `ts` go as `us` do to the end, or up to the word `w`. -/
def Follows (w : String) (ts us : List Token) : Prop := ts = us ∨ StopsAt w ts us

variable {w : String} {ts us vs ws : List Token}

theorem follows_refl (w : String) (ts : List Token) : Follows w ts ts := .inl rfl

theorem Follows.length_le (h : Follows w ts us) : us.length ≤ ts.length := by
  rcases h with rfl | ⟨front, back, later, rfl, rfl, hlength⟩
  · exact Nat.le_refl _
  · simp only [List.length_append, List.length_cons]
    omega

theorem Follows.append (h : Follows w ts us) (h' : Follows w vs ws) :
    Follows w (ts ++ vs) (us ++ ws) := by
  have hlater := h'.length_le
  rcases h with rfl | ⟨front, back, later, rfl, rfl, hlength⟩
  · rcases h' with rfl | ⟨front, back, later, rfl, rfl, hlength⟩
    · exact follows_refl w _
    · exact .inr ⟨ts ++ front, back, later, by simp, by simp, hlength⟩
  · refine .inr ⟨front, back ++ vs, later ++ ws, by simp, by simp, ?_⟩
    simp only [List.length_append]
    omega

theorem Follows.cons (t : Token) (h : Follows w ts us) : Follows w (t :: ts) (t :: us) :=
  (follows_refl w [t]).append h

theorem follows_rowTokens {entries texts : List (List Token)}
    (h : List.Forall₂ (Follows w) entries texts) :
    Follows w (rowTokens entries) (rowTokens texts) := by
  induction h with
  | nil => exact follows_refl w _
  | cons hentry _ ih =>
    rw [rowTokens_cons, rowTokens_cons]
    exact (hentry.append ih).cons .space

theorem follows_bodyTokens {rows texts : List (List (List Token))}
    (h : List.Forall₂ (List.Forall₂ (Follows w)) rows texts) :
    Follows w (bodyTokens rows) (bodyTokens texts) := by
  induction h with
  | nil => exact follows_refl w _
  | cons hrow hrest ih =>
    replace hrow := follows_rowTokens hrow
    cases hrest with
    | nil => simpa [bodyTokens] using hrow
    | cons hnext hlater =>
      simpa [bodyTokens] using hrow.append (ih.cons .rowEnd)

end Token

/-- A word that names no operator is refused wherever it is met. -/
theorem Reading.result_step_word {w : String} (hw : Unary.ofWord? w = none) (column : Nat)
    (r : Reading) :
    (r.step (.word w) column).result = .error (.text ⟨.unknownWord w, column⟩) := by
  cases r <;>
    simp only [Reading.step, Reading.stepOutside, Reading.stepInside, Reading.operatorOf, hw] <;>
    rfl

/-- A text that goes as a literal does up to a word that names no operator is refused there. -/
theorem evaluate_of_stopsAt {source : String} {w : String} {ts us : List Token}
    {a : DenseMatrix Float} (hlex : Token.Lexes source.toList ts) (hw : Unary.ofWord? w = none)
    (hstop : Token.StopsAt w ts us)
    (hread : ∀ placed : List Placed, placed.map Placed.token = us →
      (Reading.items placed .outside).result = .ok ([.operand a], .outside)) :
    ∃ column, (evaluate source).result = .error (.text ⟨.unknownWord w, column⟩) := by
  obtain ⟨front, back, later, rfl, rfl, -⟩ := hstop
  obtain ⟨placed, hplaced, htokens⟩ := hlex.exists_lexFrom 0
  obtain ⟨before, after, rfl, rfl, hafter⟩ := List.map_eq_append_iff.1 htokens
  obtain ⟨p, rest, rfl, hp, -⟩ := List.map_eq_cons_iff.1 hafter
  -- the tokens before the word are read, and no more than the literal comes out of them
  obtain ⟨items, r, hitems, hfed⟩ : ∃ items r,
      (Reading.items before .outside).result = .ok (items, r) ∧
      ∃ s, ((Stacks.empty : Stacks Float).feedAll items).toLogged.result = .ok s := by
    have hwhole := hread (before ++ later.map fun t => ⟨t, 0⟩) (by simp [Function.comp_def])
    rw [Reading.items_append] at hwhole
    obtain ⟨⟨items, r⟩, hitems, hrest⟩ := bind_eq_ok_iff.1 hwhole
    refine ⟨items, r, hitems, ?_⟩
    obtain ⟨more, hmore⟩ : ∃ more, items ++ more = [.operand a] := by
      cases hlater : (Reading.items (later.map fun t => ⟨t, 0⟩) r).result with
      | error f =>
        rw [hlater] at hrest
        cases hrest
      | ok x =>
        rw [hlater] at hrest
        exact ⟨x.1, congrArg Prod.fst (Except.ok.inj hrest)⟩
    rcases List.append_eq_singleton_iff.1 hmore with ⟨hnone, -⟩ | ⟨hone, -⟩
    · rw [hnone]
      exact ⟨_, rfl⟩
    · rw [hone]
      exact ⟨_, rfl⟩
  obtain ⟨s, hs⟩ := hfed
  have hlexed : Token.lex source = .ok (before ++ p :: rest) := hplaced
  have hrun : (evaluateTokens (before ++ p :: rest) .outside .empty).result =
      .error (.text ⟨.unknownWord w, p.column⟩) := by
    rw [evaluateTokens_append, result_evaluateTokens hitems, hs]
    show (evaluateTokens (p :: rest) r s).result = _
    rw [evaluateTokens_cons, Logged.result_bind, hp, Reading.result_step_word hw]
    rfl
  refine ⟨p.column, ?_⟩
  rw [result_evaluate_of_lex_eq_ok hlexed, hrun]
  rfl

/-! ## §4 Matrices -/

namespace Token

theorem rowChars_eq {entries : List (List Char)} (hne : entries ≠ []) :
    rowChars entries = ' ' :: ([' '].intercalate entries ++ [' ']) := by
  induction entries with
  | nil => exact absurd rfl hne
  | cons x entries ih =>
    cases entries with
    | nil => simp [rowChars]
    | cons y entries =>
      have hrest := ih (by simp)
      unfold rowChars at hrest ⊢
      rw [List.flatMap_cons, List.append_assoc, hrest]
      simp

/-- The blanks around the row ends and at the ends are those at the ends of the rows. -/
theorem bodyChars_eq {rows : List (List (List Char))} (hne : rows ≠ [])
    (h : ∀ row ∈ rows, row ≠ []) :
    bodyChars rows =
      ' ' :: ([' ', ';', ' '].intercalate (rows.map [' '].intercalate) ++ [' ']) := by
  induction rows with
  | nil => exact absurd rfl hne
  | cons row rows ih =>
    obtain ⟨hrow, hrows⟩ := List.forall_mem_cons.1 h
    cases rows with
    | nil => simp [bodyChars, rowChars_eq hrow]
    | cons next rows =>
      have hrest := ih (by simp) hrows
      unfold bodyChars at hrest ⊢
      rw [List.map_cons, List.map_cons, List.intercalate_cons_cons, ← List.map_cons, hrest,
        rowChars_eq hrow]
      simp

end Token

namespace DenseMatrix

variable {a : DenseMatrix Float}

theorem toList_text (h : a.WellFormed) :
    (a.text .bracketed).toList =
      '[' ::
        (Token.bodyChars (a.rowList.map (List.map fun x => (entryText x).toList)) ++ [']']) := by
  have hne : a.rowList.map (List.map fun x => (entryText x).toList) ≠ [] := by
    simpa using rowList_ne_nil h
  have hrows : ∀ row ∈ a.rowList.map (List.map fun x => (entryText x).toList), row ≠ [] := by
    intro texts htexts
    obtain ⟨row, hrow, rfl⟩ := List.mem_map.1 htexts
    have hlength := length_of_mem_rowList h hrow
    have hcols := h.cols_pos
    rintro hnil
    rw [List.map_eq_nil_iff.1 hnil, List.length_nil] at hlength
    omega
  rw [Token.bodyChars_eq hne hrows]
  simp [text, rowTexts, String.toList_intercalate, Function.comp_def]

theorem mem_values_of_rowList (h : a.WellFormed) {row : List Float} (hrow : row ∈ a.rowList)
    {x : Float} (hx : x ∈ row) : x ∈ a.values := by
  rw [← Array.mem_toList_iff, ← flatten_rowList h]
  exact List.mem_flatten_of_mem hrow hx

def textTokens (a : DenseMatrix Float) : List Token :=
  .literalStart :: (Token.bodyTokens (a.rowList.map (List.map entryTokens)) ++ [.literalEnd])

/-- The tokens of the literal that is left of the text when the exponents are cut off. -/
def mantissaTokens (a : DenseMatrix Float) : List Token :=
  .literalStart ::
    (Token.bodyTokens (Token.plainTokens (a.rowList.map (List.map mantissaText))) ++ [.literalEnd])

theorem lexes_text (h : a.WellFormed) (hfinite : ∀ x ∈ a.values, x.isFinite = true) :
    Token.Lexes (a.text .bracketed).toList a.textTokens := by
  rw [toList_text h]
  refine Token.lexes_literal (Token.lexes_body ?_)
  rw [List.forall₂_map_left_iff, List.forall₂_map_right_iff, List.forall₂_same]
  intro row hrow
  rw [List.forall₂_map_left_iff, List.forall₂_map_right_iff, List.forall₂_same]
  intro x hx
  exact (isPlain_mantissaText_isChunk (hfinite x (mem_values_of_rowList h hrow hx))).2

theorem follows_textTokens (a : DenseMatrix Float) :
    Token.Follows "e" a.textTokens a.mantissaTokens := by
  have hentry (x : Float) :
      Token.Follows "e" (entryTokens x) (Token.ofPlain (mantissaText x).toList) := by
    unfold entryTokens
    split
    next => exact Token.follows_refl _ _
    next es _ => exact .inr ⟨_, Token.ofPlain es, [], rfl, (List.append_nil _).symm, Nat.zero_le _⟩
  have hbody : Token.Follows "e" (Token.bodyTokens (a.rowList.map (List.map entryTokens)))
      (Token.bodyTokens (Token.plainTokens (a.rowList.map (List.map mantissaText)))) := by
    refine Token.follows_bodyTokens ?_
    rw [Token.plainTokens, List.map_map, List.forall₂_map_left_iff, List.forall₂_map_right_iff,
      List.forall₂_same]
    intro row hrow
    rw [Function.comp_apply, List.map_map, List.forall₂_map_left_iff, List.forall₂_map_right_iff,
      List.forall₂_same]
    intro x _
    rw [Function.comp_apply]
    exact hentry x
  exact (hbody.append (Token.follows_refl "e" [.literalEnd])).cons .literalStart

theorem rows_mantissas (h : a.WellFormed) (hfinite : ∀ x ∈ a.values, x.isFinite = true) :
    Token.rows (Token.bodyTokens (Token.plainTokens (a.rowList.map (List.map mantissaText)))) =
        a.rowList.map (List.map mantissaText) ∧
      Token.IsBody a.cols
        (Token.bodyTokens (Token.plainTokens (a.rowList.map (List.map mantissaText)))) := by
  have hne : a.rowList.map (List.map mantissaText) ≠ [] := by simpa using rowList_ne_nil h
  have hlength : ∀ texts ∈ a.rowList.map (List.map mantissaText), texts.length = a.cols := by
    intro texts htexts
    obtain ⟨row, hrow, rfl⟩ := List.mem_map.1 htexts
    rw [List.length_map]
    exact length_of_mem_rowList h hrow
  have hplain : ∀ texts ∈ a.rowList.map (List.map mantissaText), ∀ s ∈ texts,
      Numeral.isPlain s = true := by
    intro texts htexts s hs
    obtain ⟨row, hrow, rfl⟩ := List.mem_map.1 htexts
    obtain ⟨x, hx, rfl⟩ := List.mem_map.1 hs
    exact (isPlain_mantissaText_isChunk (hfinite x (mem_values_of_rowList h hrow hx))).1
  exact ⟨Token.rows_bodyTokens hne hplain, Token.isBody_bodyTokens hne h.cols_pos hlength hplain⟩

theorem word_mem_textTokens (h : a.WellFormed) {x : Float} (hx : x ∈ a.values)
    (he : 'e' ∈ (entryText x).toList) : .word "e" ∈ a.textTokens := by
  have hentry : .word "e" ∈ entryTokens x := by
    have hdrop : (entryText x).toList.dropWhile (· != 'e') ≠ [] := by
      intro hnil
      have hall := List.dropWhile_eq_nil_iff.1 hnil 'e' he
      cases hall
    obtain ⟨c, es, hes⟩ := List.exists_cons_of_ne_nil hdrop
    rw [entryTokens, hes]
    simp
  rw [← Array.mem_toList_iff, ← flatten_rowList h] at hx
  obtain ⟨row, hrow, hx⟩ := List.mem_flatten.1 hx
  refine List.mem_cons_of_mem _ (List.mem_append_left _ ?_)
  refine (Token.mem_bodyTokens (by simp)).2 ⟨_, List.mem_map_of_mem hrow, ?_⟩
  refine List.mem_append_left _ (List.mem_flatMap.2 ⟨_, List.mem_map_of_mem hx, ?_⟩)
  exact List.mem_cons_of_mem _ hentry

theorem word_notMem_mantissaTokens (a : DenseMatrix Float) (w : String) :
    .word w ∉ a.mantissaTokens := by
  intro hmem
  rcases List.mem_cons.1 hmem with hw | hmem
  · cases hw
  rcases List.mem_append.1 hmem with hmem | hw
  · cases Token.isPiece_bodyTokens _ _ hmem
  · cases List.mem_singleton.1 hw

/-- Without exponents nothing is cut off. -/
theorem map_mantissaText (h : a.WellFormed)
    (hplain : ∀ x ∈ a.values, 'e' ∉ (entryText x).toList) :
    a.rowList.map (List.map mantissaText) = a.rowList.map (List.map entryText) :=
  List.map_congr_left fun _ hrow => List.map_congr_left fun x hx =>
    mantissaText_of_notMem (hplain x (mem_values_of_rowList h hrow hx))

theorem textTokens_eq (h : a.WellFormed)
    (hplain : ∀ x ∈ a.values, 'e' ∉ (entryText x).toList) : a.textTokens = a.mantissaTokens := by
  have hrows : a.rowList.map (List.map entryTokens) =
      Token.plainTokens (a.rowList.map (List.map mantissaText)) := by
    rw [map_mantissaText h hplain, Token.plainTokens, List.map_map]
    refine List.map_congr_left fun row hrow => ?_
    rw [Function.comp_apply, List.map_map]
    exact List.map_congr_left fun x hx =>
      entryTokens_of_notMem (hplain x (mem_values_of_rowList h hrow hx))
  rw [textTokens, mantissaTokens, hrows]

end DenseMatrix

theorem forall₂_of_isFinite {xs : List Float} (h : ∀ x ∈ xs, x.isFinite = true) :
    List.Forall₂ (fun y x => (y == x) = true) ((xs.map entryText).filterMap Numeral.read?) xs := by
  induction xs with
  | nil => exact .nil
  | cons x xs ih =>
    obtain ⟨hx, hxs⟩ := List.forall_mem_cons.1 h
    obtain ⟨y, hy, hyx⟩ := (Option.any_eq_true _ _).1 (readsBack_of_isFinite hx)
    rw [List.map_cons, List.filterMap_cons_some hy]
    exact .cons hyx (ih hxs)

/-- Entries that test equal one by one have equal texts and make equal matrices. -/
theorem DenseMatrix.beq_of_forall₂ {a : DenseMatrix Float} {ys : List Float}
    (h : List.Forall₂ (fun y x => (y == x) = true) ys a.values.toList) :
    ((⟨a.toShape, ys.toArray⟩ : DenseMatrix Float) == a) = true ∧
      (⟨a.toShape, ys.toArray⟩ : DenseMatrix Float).text .bracketed = a.text .bracketed := by
  have hbeq : ∀ {ys xs : List Float}, List.Forall₂ (fun y x => (y == x) = true) ys xs →
      (ys == xs) = true ∧ ys.map entryText = xs.map entryText := by
    intro ys xs h
    induction h with
    | nil => exact ⟨rfl, rfl⟩
    | cons hyx _ ih =>
      rw [List.cons_beq_cons, Bool.and_eq_true, List.map_cons, List.map_cons, entryText_congr hyx,
        ih.2]
      exact ⟨⟨hyx, ih.1⟩, rfl⟩
  obtain ⟨hvalues, htexts⟩ := hbeq h
  constructor
  · show (a.toShape == a.toShape && ys.toArray == a.values) = true
    rw [BEq.rfl, Bool.true_and, ← Array.beq_toList]
    exact hvalues
  · have hmap : ys.toArray.map entryText = a.values.map entryText := by
      rw [← Array.toList_inj, Array.toList_map, Array.toList_map]
      exact htexts
    have hrowTexts (m : DenseMatrix Float) :
        m.rowTexts = (m.rowList.map (List.map entryText)).map (" ".intercalate ·) := by
      rw [rowTexts, List.map_map]
      rfl
    have hrows := map_rowList_congr (a := ⟨a.toShape, ys.toArray⟩) (b := a) rfl hmap
    rw [text, text, hrowTexts, hrowTexts, hrows]

/-- Bracketed text without exponents is read back. -/
theorem exists_evaluate_text {a : DenseMatrix Float} (hwell : a.WellFormed)
    (hfinite : ∀ x ∈ a.values, x.isFinite = true)
    (htext : (a.text .bracketed).length < DenseMatrix.wordCount)
    (hplain : ∀ x ∈ a.values, 'e' ∉ (entryText x).toList) :
    ∃ b, (evaluate (a.text .bracketed)).result = .ok b ∧ (b == a) = true ∧
      b.text .bracketed = a.text .bracketed := by
  have hlex := DenseMatrix.lexes_text hwell hfinite
  rw [DenseMatrix.textTokens_eq hwell hplain] at hlex
  obtain ⟨hrows, hbody⟩ := DenseMatrix.rows_mantissas hwell hfinite
  have hreads := reads_of_spells hlex (.literal a.cols _ hbody .nil)
    (by rwa [String.length_toList])
  -- the numerals of the literal are the texts of the entries
  have hmatrix : Token.matrix a.cols
      (Token.bodyTokens (Token.plainTokens (a.rowList.map (List.map mantissaText)))) =
        ⟨a.toShape, ((a.values.toList.map entryText).filterMap Numeral.read?).toArray⟩ := by
    rw [Token.matrix, hrows, List.length_map, DenseMatrix.length_rowList hwell,
      DenseMatrix.map_mantissaText hwell hplain, ← List.map_flatten,
      DenseMatrix.flatten_rowList hwell]
  rw [hmatrix] at hreads
  have hvalues := forall₂_of_isFinite fun x hx => hfinite x (Array.mem_toList_iff.1 hx)
  exact ⟨_, result_evaluate hreads, DenseMatrix.beq_of_forall₂ hvalues⟩

/-- The value of a text, if its entries are finite, is written in brackets so that it can be read
again: the text has a value that tests equal and is written alike. It fails only where an entry is
too small or too large to be written in full. Its text has an exponent, which is no part of a
literal, and the letter is refused as a word. -/
theorem evaluate_bracketed_text {source : String} {a : DenseMatrix Float}
    (hsize : source.length < DenseMatrix.wordCount) (ha : (evaluate source).result = .ok a)
    (hfinite : ∀ x ∈ a.values, x.isFinite = true)
    (htext : (a.text .bracketed).length < DenseMatrix.wordCount) :
    ((∀ x ∈ a.values, isWrittenOut x = true) →
      (∃ b, (evaluate (a.text .bracketed)).result = .ok b ∧ (b == a) = true) ∧
        (evaluateToText .bracketed (a.text .bracketed)).result = .ok (a.text .bracketed)) ∧
    ((∃ x ∈ a.values, isWrittenOut x = false) →
      ∃ column, (evaluate (a.text .bracketed)).result =
        .error (.text ⟨.unknownWord "e", column⟩)) := by
  have hwell : a.WellFormed := (safe_evaluate hsize).of_ok ha
  constructor
  · intro hfull
    have hplain : ∀ x ∈ a.values, 'e' ∉ (entryText x).toList := by
      intro x hx
      rw [mem_entryText_iff (hfinite x hx), hfull x hx]
      exact Bool.false_ne_true.symm
    obtain ⟨b, hb, hba, htexts⟩ := exists_evaluate_text hwell hfinite htext hplain
    refine ⟨⟨b, hb, hba⟩, ?_⟩
    rw [evaluateToText, Logged.result_bind, hb, ← htexts]
    rfl
  rintro ⟨x, hx, hsize⟩
  have he := (mem_entryText_iff (hfinite x hx)).2 hsize
  have hlex := DenseMatrix.lexes_text hwell hfinite
  rcases a.follows_textTokens with heq | hstop
  · have hword := DenseMatrix.word_mem_textTokens hwell hx he
    rw [heq] at hword
    exact absurd hword (a.word_notMem_mantissaTokens "e")
  have hlength : a.mantissaTokens.length < DenseMatrix.wordCount := by
    have hle := Nat.le_trans (Token.Follows.length_le (.inr hstop)) hlex.length_le
    rw [String.length_toList] at hle
    exact Nat.lt_of_le_of_lt hle htext
  simp only [DenseMatrix.mantissaTokens, List.length_cons, List.length_append,
    List.length_nil] at hlength
  exact evaluate_of_stopsAt hlex rfl hstop fun placed hplaced =>
    Reading.items_literal (DenseMatrix.rows_mantissas hwell hfinite).2 (by omega) hplaced

/-- A minus zero is read back as zero, and a number that is too large is not read back. -/
theorem evaluate_bracketed_text_zero :
    (evaluateToText .bracketed "[ -3.0 1.5 ; 0.0 0.0 ]").result = .ok "[ -3.0 1.5 ; 0.0 0.0 ]" ∧
      ∃ column, (evaluate "[ 0.5 1e16 ]").result =
        .error (.text ⟨.unknownWord "e", column⟩) := by
  constructor
  · let a : DenseMatrix Float := ⟨⟨2, 2⟩, #[-3, 1.5, -0.0, 0]⟩
    have ha : (evaluate "[1.5;0] * [-2 1]").result = .ok a := by decide +kernel
    have htext : a.text .bracketed = "[ -3.0 1.5 ; 0.0 0.0 ]" := by decide +kernel
    have hback := (evaluate_bracketed_text (by decide) ha (by decide +kernel)
      (by rw [htext]; decide)).1 (by decide +kernel)
    rw [htext] at hback
    exact hback.2
  · let a : DenseMatrix Float := ⟨⟨1, 2⟩, #[0.5, 1e16]⟩
    have ha : (evaluate "[.5 10000000000000000]").result = .ok a := by decide +kernel
    have htext : a.text .bracketed = "[ 0.5 1e16 ]" := by decide +kernel
    have hrefused := (evaluate_bracketed_text (by decide) ha (by decide +kernel)
      (by rw [htext]; decide)).2 (by decide +kernel)
    rwa [htext] at hrefused

/-- A whole number of seventeen digits has a value and its text is a number, but an expression with
this text has none. -/
theorem evaluate_bracketed_text_exponent :
    let a : DenseMatrix Float := ⟨⟨1, 1⟩, #[1e16]⟩
    (evaluate "[10000000000000000]").result = .ok a ∧ (∀ x ∈ a.values, x.isFinite = true) ∧
      (∀ x ∈ a.values, readsBack x = true) ∧ a.text .bracketed = "[ 1e16 ]" ∧
      (evaluate (a.text .bracketed)).result = .error (.text ⟨.unknownWord "e", 3⟩) := by
  decide +kernel

end MatrixCalc
