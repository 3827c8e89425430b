import MatrixCalc.Proofs.Text.Rendering

/-!
# Matrices told apart by their texts

The text of an entry that is no NaN is read back, so it tells the entry but for the sign of a zero
(`entryText_eq_iff`). The text of any entry has no space, line break, row end or bracket inside. So
plain and bracketed text are cut into the texts of the rows, and these into the texts of the
entries, without mistaking one separator for another or for a part of a number
(`DenseMatrix.text_eq_iff_entryChars`). Shape and entries of a matrix are therefore told by its text
in either form (`DenseMatrix.text_eq_iff`).

§1 texts of entries · §2 pieces of a text · §3 rows of a text · §4 texts of matrices
-/

namespace MatrixCalc

/-! ## §1 Texts of entries -/

open Float.Model (UnpackedFloat)

theorem isFinite_or_special (x : Float) :
    x.isFinite = true ∨ x = 1.0 / 0.0 ∨ x = -1.0 / 0.0 ∨ x = 0.0 / 0.0 := by
  change x.toModel.unpack.isFinite = true ∨ _
  cases hunpack : x.toModel.unpack with
  | notANumber => exact .inr (.inr (.inr (eq_of_unpack hunpack)))
  | zero s => exact .inl rfl
  | finite s m e hm => exact .inl rfl
  | infinity s =>
    cases s with
    | positive => exact .inr (.inl (eq_of_unpack hunpack))
    | negative => exact .inr (.inr (.inl (eq_of_unpack hunpack)))

/-- The text of an entry is read as a number that tests equal to it. -/
theorem readsBack_of_isNaN_eq_false {x : Float} (hx : x.isNaN = false) : readsBack x = true := by
  rcases isFinite_or_special x with hfinite | rfl | rfl | rfl
  · exact readsBack_of_isFinite hfinite
  · decide +kernel
  · decide +kernel
  · exact absurd hx (by decide +kernel)

/-- Two entries have the same text exactly if they test equal. -/
theorem entryText_eq_iff {x y : Float} (hx : x.isNaN = false) (hy : y.isNaN = false) :
    entryText x = entryText y ↔ (x == y) = true := by
  refine ⟨fun h => ?_, entryText_congr⟩
  obtain ⟨z, hz, hzx⟩ := (Option.any_eq_true _ _).1 (readsBack_of_isNaN_eq_false hx)
  obtain ⟨w, hw, hwy⟩ := (Option.any_eq_true _ _).1 (readsBack_of_isNaN_eq_false hy)
  obtain rfl : z = w := Option.some_inj.1 (hz.symm.trans (h ▸ hw))
  obtain ⟨hnz, hnx, hzx⟩ := Float.beq_iff_ne_nan_and_eq.1 hzx
  obtain ⟨-, hny, hzy⟩ := Float.beq_iff_ne_nan_and_eq.1 hwy
  refine Float.beq_iff_ne_nan_and_eq.2 ⟨hnx, hny, ?_⟩
  have hzeros : (0 : Float) ≠ -0 := by decide +kernel
  rcases hzx with rfl | ⟨rfl, rfl⟩ | ⟨rfl, rfl⟩
  · exact hzy
  · rcases hzy with rfl | ⟨-, rfl⟩ | ⟨hzero, -⟩
    · exact .inr (.inr ⟨rfl, rfl⟩)
    · exact .inl rfl
    · exact absurd hzero hzeros
  · rcases hzy with rfl | ⟨hzero, -⟩ | ⟨-, rfl⟩
    · exact .inr (.inl ⟨rfl, rfl⟩)
    · exact absurd hzero.symm hzeros
    · exact .inl rfl

/-- A text as those of entries are: not empty, and of digits, points, signs and letters. -/
structure IsEntryText (cs : List Char) : Prop where
  ne_nil : cs ≠ []
  chars : ∀ c ∈ cs, Token.isNumeral c = true ∨ c.isAlpha = true

theorem isEntryText_entryText (x : Float) : IsEntryText (entryText x).toList := by
  rcases isFinite_or_special x with hfinite | rfl | rfl | rfl
  · rcases entryText_cases hfinite with hplain | ⟨cs, es, hcs, hes, heq⟩
    · rw [← String.ofList_toList (s := entryText x)] at hplain
      refine ⟨fun hnil => ?_, fun c hc => .inl (Token.isNumeral_of_isPlain hplain c hc)⟩
      rw [hnil] at hplain
      cases hplain
    · rw [heq]
      refine ⟨by simp, fun c hc => ?_⟩
      rcases List.mem_append.1 hc with hc | hc
      · exact .inl (Token.isNumeral_of_isPlain hcs c hc)
      rcases List.mem_cons.1 hc with rfl | hc
      · exact .inr rfl
      · exact .inl (Token.isNumeral_of_isPlain hes c hc)
  · have hword : (entryText (1.0 / 0.0)).toList = ['i', 'n', 'f'] := by decide +kernel
    rw [hword]
    exact ⟨by decide, fun c hc => by fin_cases hc <;> decide⟩
  · have hword : (entryText (-1.0 / 0.0)).toList = ['-', 'i', 'n', 'f'] := by decide +kernel
    rw [hword]
    exact ⟨by decide, fun c hc => by fin_cases hc <;> decide⟩
  · have hword : (entryText (0.0 / 0.0)).toList = ['N', 'a', 'N'] := by decide +kernel
    rw [hword]
    exact ⟨by decide, fun c hc => by fin_cases hc <;> decide⟩

/-! ## §2 Pieces of a text -/

/-- Pieces that are joined by a character that is in none of them are the same if the texts are. -/
theorem eq_of_intercalate {β : Type} [BEq β] [LawfulBEq β] {x : β} {ls ls' : List (List β)}
    (hmem : ∀ l ∈ ls, x ∉ l) (hmem' : ∀ l ∈ ls', x ∉ l) (hne : ls ≠ []) (hne' : ls' ≠ [])
    (h : [x].intercalate ls = [x].intercalate ls') : ls = ls' := by
  rw [← List.splitOn_intercalate x hmem hne, h, List.splitOn_intercalate x hmem' hne']

/-- A character after each piece is one between the pieces and an empty one at the end. -/
theorem flatMap_append_singleton {β : Type} (x : β) (ls : List (List β)) :
    ls.flatMap (· ++ [x]) = [x].intercalate (ls ++ [[]]) := by
  induction ls with
  | nil => rfl
  | cons l ls ih =>
    obtain ⟨next, rest, hrest⟩ := List.exists_cons_of_ne_nil (l := ls ++ [[]]) (by simp)
    rw [List.flatMap_cons, ih, List.cons_append, hrest, List.intercalate_cons_cons]

/-- A character of a joined text is in a piece or it is the one between the pieces. -/
theorem mem_of_mem_intercalate {β : Type} {x c : β} {ls : List (List β)}
    (h : c ∈ [x].intercalate ls) : c = x ∨ ∃ l ∈ ls, c ∈ l := by
  induction ls with
  | nil => cases h
  | cons l ls ih =>
    cases ls with
    | nil => exact .inr ⟨l, List.mem_cons_self, by simpa using h⟩
    | cons next ls =>
      rw [List.intercalate_cons_cons, List.append_assoc, List.mem_append, List.mem_append,
        List.mem_singleton] at h
      rcases h with h | h | h
      · exact .inr ⟨l, List.mem_cons_self, h⟩
      · exact .inl h
      · exact (ih h).imp_right fun ⟨m, hm, hc⟩ => ⟨m, List.mem_cons_of_mem l hm, hc⟩

/-! ## §3 Rows of a text -/

/-- Rows of pieces as the texts of entries are: without spaces, line breaks and row ends. -/
structure IsPlainRows (rows : List (List (List Char))) : Prop where
  ne_nil : rows ≠ []
  row_ne_nil : ∀ row ∈ rows, row ≠ []
  entries : ∀ row ∈ rows, ∀ cs ∈ row, IsEntryText cs

def spacedRows (rows : List (List (List Char))) : List (List Char) := rows.map [' '].intercalate

namespace IsPlainRows

variable {rows rows' : List (List (List Char))}

theorem notMem_spacedRows (h : IsPlainRows rows) {x : Char} (hspace : x ≠ ' ')
    (hnumeral : Token.isNumeral x = false) (hletter : x.isAlpha = false) :
    ∀ line ∈ spacedRows rows, x ∉ line := by
  intro line hline hx
  obtain ⟨row, hrow, rfl⟩ := List.mem_map.1 hline
  rcases mem_of_mem_intercalate hx with rfl | ⟨cs, hcs, hx⟩
  · exact hspace rfl
  · rcases (h.entries row hrow cs hcs).chars x hx with hchar | hchar
    · rw [hnumeral] at hchar
      cases hchar
    · rw [hletter] at hchar
      cases hchar

theorem spacedRows_ne_nil (h : IsPlainRows rows) : spacedRows rows ≠ [] := by
  simpa [spacedRows] using h.ne_nil

theorem ne_nil_of_mem_spacedRows (h : IsPlainRows rows) : ∀ line ∈ spacedRows rows, line ≠ [] := by
  refine List.forall_mem_map.2 fun row hrow hnil => ?_
  obtain ⟨cs, rest, rfl⟩ := List.exists_cons_of_ne_nil (h.row_ne_nil row hrow)
  have hcs := (h.entries _ hrow cs List.mem_cons_self).ne_nil
  cases rest with
  | nil => exact hcs (by simpa using hnil)
  | cons next rest => simp [List.intercalate_cons_cons, hcs] at hnil

/-- The rows are the pieces between the spaces. -/
theorem splitOn_spacedRows (h : IsPlainRows rows) :
    (spacedRows rows).map (List.splitOn ' ') = rows := by
  rw [spacedRows, List.map_map]
  refine (List.map_congr_left fun row hrow => ?_).trans (List.map_id rows)
  refine List.splitOn_intercalate ' ' (fun cs hcs hspace => ?_) (h.row_ne_nil row hrow)
  rcases (h.entries row hrow cs hcs).chars ' ' hspace with hchar | hchar <;> cases hchar

theorem eq_of_spacedRows (h : IsPlainRows rows) (h' : IsPlainRows rows')
    (heq : spacedRows rows = spacedRows rows') : rows = rows' := by
  rw [← h.splitOn_spacedRows, heq, h'.splitOn_spacedRows]

/-- Rows with a line break after each are told by the text. -/
theorem eq_of_lines (h : IsPlainRows rows) (h' : IsPlainRows rows')
    (heq : (spacedRows rows).flatMap (· ++ ['\n']) = (spacedRows rows').flatMap (· ++ ['\n'])) :
    rows = rows' := by
  have hbreak {rows : List (List (List Char))} (h : IsPlainRows rows) :
      ∀ line ∈ spacedRows rows ++ [[]], '\n' ∉ line :=
    List.forall_mem_append.2 ⟨h.notMem_spacedRows (by decide) rfl rfl, by simp⟩
  rw [flatMap_append_singleton, flatMap_append_singleton] at heq
  have hlines := eq_of_intercalate (hbreak h) (hbreak h') (by simp) (by simp) heq
  exact h.eq_of_spacedRows h' (List.append_cancel_right hlines)

/-- Rows between brackets are told by the text. -/
theorem eq_of_bodyChars (h : IsPlainRows rows) (h' : IsPlainRows rows')
    (heq : Token.bodyChars rows = Token.bodyChars rows') : rows = rows' := by
  have hpadded {rows : List (List (List Char))} (h : IsPlainRows rows) :
      rows.map Token.rowChars = (spacedRows rows).map fun line => ' ' :: (line ++ [' ']) := by
    rw [spacedRows, List.map_map]
    exact List.map_congr_left fun row hrow => Token.rowChars_eq (h.row_ne_nil row hrow)
  have hend {rows : List (List (List Char))} (h : IsPlainRows rows) :
      ∀ line ∈ rows.map Token.rowChars, ';' ∉ line := by
    rw [hpadded h]
    refine List.forall_mem_map.2 fun line hline hmem => ?_
    have hnone : ';' ∉ line := h.notMem_spacedRows (by decide) rfl rfl line hline
    simp [hnone] at hmem
  have hrows := eq_of_intercalate (hend h) (hend h') (by simpa using h.ne_nil)
    (by simpa using h'.ne_nil) heq
  rw [hpadded h, hpadded h'] at hrows
  refine h.eq_of_spacedRows h' (List.map_injective_iff.2 (fun line line' hline => ?_) hrows)
  exact List.append_cancel_right (List.cons.inj hline).2

end IsPlainRows

/-! ## §4 Texts of matrices -/

namespace DenseMatrix

variable {a b : DenseMatrix Float}

def entryChars (a : DenseMatrix Float) : List (List (List Char)) :=
  a.rowList.map (List.map fun x => (entryText x).toList)

theorem isPlainRows_entryChars (ha : a.WellFormed) : IsPlainRows a.entryChars where
  ne_nil := by simpa [entryChars] using rowList_ne_nil ha
  row_ne_nil := by
    refine List.forall_mem_map.2 fun row hrow hnil => ?_
    have hlength := length_of_mem_rowList ha hrow
    have hcols := ha.cols_pos
    rw [List.map_eq_nil_iff.1 hnil, List.length_nil] at hlength
    omega
  entries := List.forall_mem_map.2 fun row _ =>
    List.forall_mem_map.2 fun x _ => isEntryText_entryText x

theorem toList_text_plain (a : DenseMatrix Float) :
    (a.text .plain).toList = (spacedRows a.entryChars).flatMap (· ++ ['\n']) := by
  simp [text, rowTexts, entryChars, spacedRows, String.toList_join, String.toList_intercalate,
    List.flatMap_map, Function.comp_def]

/-- The text in either form tells the characters of the entries, and is told by them. -/
theorem text_eq_iff_entryChars (ha : a.WellFormed) (hb : b.WellFormed) (style : Style) :
    a.text style = b.text style ↔ a.entryChars = b.entryChars := by
  have hrowsA := isPlainRows_entryChars ha
  have hrowsB := isPlainRows_entryChars hb
  rw [← String.toList_inj]
  cases style with
  | plain =>
    rw [toList_text_plain, toList_text_plain]
    exact ⟨hrowsA.eq_of_lines hrowsB, fun h => by rw [h]⟩
  | bracketed =>
    rw [toList_text ha, toList_text hb, List.cons_inj_right, List.append_left_inj]
    exact ⟨hrowsA.eq_of_bodyChars hrowsB, congrArg Token.bodyChars⟩

theorem beq_iff_map_entryText {xs ys : List Float} (hx : ∀ x ∈ xs, x.isNaN = false)
    (hy : ∀ y ∈ ys, y.isNaN = false) :
    (xs == ys) = true ↔ xs.map entryText = ys.map entryText := by
  induction xs generalizing ys with
  | nil => cases ys <;> simp
  | cons x xs ih =>
    cases ys with
    | nil => simp
    | cons y ys =>
      obtain ⟨hx, hxs⟩ := List.forall_mem_cons.1 hx
      obtain ⟨hy, hys⟩ := List.forall_mem_cons.1 hy
      rw [List.cons_beq_cons, Bool.and_eq_true, ih hxs hys, List.map_cons, List.map_cons,
        List.cons.injEq, entryText_eq_iff hx hy]

/-- Matrices test equal exactly if the characters of their entries are the same, row by row. -/
theorem beq_iff_entryChars (ha : a.WellFormed) (hb : b.WellFormed)
    (hna : ∀ x ∈ a.values, x.isNaN = false) (hnb : ∀ x ∈ b.values, x.isNaN = false) :
    (a == b) = true ↔ a.entryChars = b.entryChars := by
  have hvalues : (a.values == b.values) = true ↔
      a.values.map (fun x => (entryText x).toList) =
        b.values.map fun x => (entryText x).toList := by
    rw [← Array.beq_toList, beq_iff_map_entryText (by simpa using hna) (by simpa using hnb),
      ← Array.toList_inj, Array.toList_map, Array.toList_map]
    have htexts (m : DenseMatrix Float) : m.values.toList.map (fun x => (entryText x).toList) =
        (m.values.toList.map entryText).map String.toList := by
      rw [List.map_map]
      rfl
    rw [htexts, htexts]
    exact (List.map_injective_iff.2 fun _ _ => String.toList_injective).eq_iff.symm
  show (a.toShape == b.toShape && a.values == b.values) = true ↔ _
  rw [Bool.and_eq_true, beq_iff_eq, hvalues]
  constructor
  · rintro ⟨hshape, hmap⟩
    exact map_rowList_congr hshape hmap
  · intro hchars
    have hflatten (m : DenseMatrix Float) (hm : m.WellFormed) : m.entryChars.flatten =
        m.values.toList.map fun x => (entryText x).toList := by
      rw [entryChars, ← List.map_flatten, flatten_rowList hm]
    have hmap := congrArg List.flatten hchars
    rw [hflatten a ha, hflatten b hb] at hmap
    have hrows : a.rows = b.rows := by
      simpa [entryChars, length_rowList ha, length_rowList hb] using congrArg List.length hchars
    have hcols : a.cols = b.cols := by
      have hsize := congrArg List.length hmap
      simp only [List.length_map, Array.length_toList] at hsize
      rw [ha.size_values, hb.size_values, hrows] at hsize
      exact Nat.eq_of_mul_eq_mul_left hb.rows_pos hsize
    refine ⟨?_, ?_⟩
    · show Shape.mk a.rows a.cols = Shape.mk b.rows b.cols
      rw [hrows, hcols]
    · rw [← Array.toList_inj, Array.toList_map, Array.toList_map]
      exact hmap

/-- Matrices without a NaN have the same text, plain or in brackets, exactly if they test equal. So
matrices of different shapes never have the same text, and it makes no difference whether a zero
has a sign. -/
theorem text_eq_iff (ha : a.WellFormed) (hb : b.WellFormed)
    (hna : ∀ x ∈ a.values, x.isNaN = false) (hnb : ∀ x ∈ b.values, x.isNaN = false)
    (style : Style) :
    (a.text style = b.text style ↔ (a == b) = true) ∧
      (a.toShape ≠ b.toShape → a.text style ≠ b.text style) ∧ entryText (-0.0) = entryText 0.0 := by
  have htext : a.text style = b.text style ↔ (a == b) = true :=
    (text_eq_iff_entryChars ha hb style).trans (beq_iff_entryChars ha hb hna hnb).symm
  refine ⟨htext, fun hshape h => ?_, by decide +kernel⟩
  have hbeq : (a.toShape == b.toShape && a.values == b.values) = true := htext.1 h
  rw [Bool.and_eq_true, beq_iff_eq] at hbeq
  exact hshape hbeq.1

/-- The sign of a zero is not seen, an infinity and a number with an exponent are, and so is where
the row ends. -/
theorem text_eq_iff_infinite :
    let a : DenseMatrix Float := ⟨⟨2, 2⟩, #[0.0, 1.0 / 0.0, -1.5, 1e300]⟩
    let b : DenseMatrix Float := ⟨⟨2, 2⟩, #[-0.0, 1.0 / 0.0, -1.5, 1e300]⟩
    let c : DenseMatrix Float := ⟨⟨1, 4⟩, #[0.0, 1.0 / 0.0, -1.5, 1e300]⟩
    (∀ style, a.text style = b.text style ∧ a.text style ≠ c.text style) ∧
      a.text .plain = "0.0 inf\n-1.5 1e300\n" ∧ c.text .bracketed = "[ 0.0 inf -1.5 1e300 ]" := by
  intro a b c
  have ha : a.WellFormed := ⟨by decide, by decide, rfl⟩
  have hb : b.WellFormed := ⟨by decide, by decide, rfl⟩
  have hc : c.WellFormed := ⟨by decide, by decide, rfl⟩
  have hna : ∀ x ∈ a.values, x.isNaN = false := by decide +kernel
  have hnb : ∀ x ∈ b.values, x.isNaN = false := by decide +kernel
  have hnc : ∀ x ∈ c.values, x.isNaN = false := by decide +kernel
  refine ⟨fun style => ⟨?_, ?_⟩, by decide +kernel, by decide +kernel⟩
  · exact (text_eq_iff ha hb hna hnb style).1.2 (by decide +kernel)
  · exact (text_eq_iff ha hc hna hnc style).2.1 (by decide)

end DenseMatrix

end MatrixCalc
