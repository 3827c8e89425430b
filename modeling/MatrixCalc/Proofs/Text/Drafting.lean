import MatrixCalc.Proofs.Outline.Value
import MatrixCalc.Proofs.Text.Literals

/-!
# Reading a literal

A draft reads a well-formed literal without fault and makes its matrix of it. What carries the proof
is `Draft.Awaits`: the numerals that were read, the one at hand and those still to come are together
the numerals of the literal.

§1 numerals on the way · §2 tokens on the way · §3 whole literals
-/

namespace MatrixCalc

/-- A move of the draft leaves reading within the literal and completes no item. -/
theorem Reading.result_goOn (x : Outcome Draft) :
    (do let next ← x.toLogged; return (inside next, none) :
      Logged (Reading × Option (Item Float))).result =
      x.toLogged.result.map fun e => (inside e, none) := by
  rw [Logged.result_bind]
  cases x.toLogged.result <;> rfl

/-! ## §1 Numerals on the way -/

namespace Draft

/-- `d.Awaits row later a`: if the numerals of `row` and then the rows `later` are read, the literal
has the matrix `a`. The number at hand is one of these numerals. -/
structure Awaits (d : Draft) (row : List String) (later : List (List String))
    (a : DenseMatrix Float) : Prop where
  isPlain : ∀ s ∈ row ++ later.flatten, Numeral.isPlain s = true
  values : d.values.toList ++ (row ++ later.flatten).filterMap Numeral.read? = a.values.toList
  cols : d.cols + row.length = a.cols
  length_later : ∀ r ∈ later, r.length = a.cols
  rows : d.rows + later.length = a.rows
  rowLength : ∀ n ∈ d.rowLength?, n = a.cols

def coming (d : Draft) (ts : List Token) : List (List String) :=
  Token.rows (.digits d.piece :: if d.spaced then .space :: ts else ts)

/-- The tokens that follow, up to the end of the literal, bring what is awaited. -/
def Expects (d : Draft) (ts : List Token) (a : DenseMatrix Float) : Prop :=
  ∃ row later, d.coming ts = row :: later ∧ d.Awaits row later a

variable {d : Draft} {row : List String} {later : List (List String)} {a : DenseMatrix Float}

theorem Awaits.flush (h : d.Awaits (Token.numeral d.piece ++ row) later a) :
    ∃ e, d.flush.toLogged.result = .ok e ∧ e.Awaits row later a ∧ e.piece = "" ∧
      e.spaced = false := by
  unfold Draft.flush
  by_cases hpiece : d.piece.isEmpty = true
  · have hnone : Token.numeral d.piece = [] := if_pos hpiece
    rw [hnone, List.nil_append] at h
    rw [if_pos hpiece]
    refine ⟨_, rfl, ?_, String.isEmpty_iff.1 hpiece, rfl⟩
    exact ⟨h.isPlain, h.values, h.cols, h.length_later, h.rows, h.rowLength⟩
  · have hone : Token.numeral d.piece = [d.piece] := if_neg hpiece
    rw [hone] at h
    obtain ⟨value, hvalue⟩ := Option.isSome_iff_exists.1
      (Numeral.isSome_read? (h.isPlain d.piece (by simp)))
    rw [if_neg hpiece, hvalue]
    refine ⟨{ d with
      piece := "", spaced := false, values := d.values.push value, cols := d.cols + 1 },
      rfl, ⟨?_, ?_, ?_, h.length_later, h.rows, h.rowLength⟩, rfl, rfl⟩
    · intro s hs
      exact h.isPlain s (List.mem_cons_of_mem _ hs)
    · have hvalues := h.values
      rw [List.cons_append, List.nil_append, List.cons_append,
        List.filterMap_cons_some hvalue] at hvalues
      simpa using hvalues
    · have hcols := h.cols
      simp only [List.cons_append, List.nil_append, List.length_cons] at hcols
      simp only
      omega

theorem result_fixRowLength (hcols : d.cols = a.cols) (hpos : 0 < a.cols)
    (h : ∀ n ∈ d.rowLength?, n = a.cols) (column : Nat) :
    (d.fixRowLength column).toLogged.result = .ok { d with rowLength? := some a.cols } := by
  have hne : d.cols ≠ 0 := by omega
  rw [fixRowLength, if_neg hne]
  cases hlength : d.rowLength? with
  | none => simp only [hcols, Outcome.result_done]
  | some n =>
    have hn : n = a.cols := h n hlength
    have hsame : { d with rowLength? := some a.cols } = d := by rw [← hn, ← hlength]
    rw [hsame]
    simp only [hcols, if_pos hn, Outcome.result_done]

theorem Awaits.settle (h : d.Awaits (Token.numeral d.piece) later a) (hpos : 0 < a.cols)
    (column : Nat) :
    ∃ e, (d.settle column).toLogged.result = .ok e ∧ e.Awaits [] later a ∧ e.piece = "" ∧
      e.spaced = false ∧ e.rowLength? = some a.cols := by
  rw [← List.append_nil (Token.numeral d.piece)] at h
  obtain ⟨e, he, hawaits, hpiece, hspaced⟩ := h.flush
  refine ⟨{ e with rowLength? := some a.cols }, ?_, ?_, hpiece, hspaced, rfl⟩
  · rw [Draft.settle, Outcome.result_andThen, he]
    exact result_fixRowLength hawaits.cols hpos hawaits.rowLength column
  · exact ⟨hawaits.isPlain, hawaits.values, hawaits.cols, hawaits.length_later, hawaits.rows,
      fun n hn => (Option.mem_some_iff.1 hn).symm⟩

theorem Awaits.endRow (h : d.Awaits (Token.numeral d.piece) (row :: later) a) (hpos : 0 < a.cols)
    (column : Nat) :
    ∃ e, (d.endRow column).toLogged.result = .ok e ∧ e.Awaits row later a ∧ e.piece = "" ∧
      e.spaced = false := by
  obtain ⟨e, he, hawaits, hpiece, hspaced, hlength⟩ := h.settle hpos column
  rw [Draft.endRow, Outcome.result_andThen, he]
  refine ⟨{ e with cols := 0, rows := e.rows + 1 }, rfl,
    ⟨hawaits.isPlain, hawaits.values, ?_, ?_, ?_, hawaits.rowLength⟩, hpiece, hspaced⟩
  · simpa using hawaits.length_later row (by simp)
  · intro r hr
    exact hawaits.length_later r (List.mem_cons_of_mem _ hr)
  · have hrows := hawaits.rows
    simp only [List.length_cons] at hrows
    simp only
    omega

theorem Awaits.close (h : d.Awaits (Token.numeral d.piece) [] a) (hpos : 0 < a.cols)
    (column : Nat) : (d.close column).result = .ok (a.toShape, a.values) := by
  obtain ⟨e, he, hawaits, -, -, hlength⟩ := h.settle hpos column
  have hshape : e.shape = a.toShape := by
    rw [shape, hlength, Option.getD_some, show e.rows = a.rows from hawaits.rows]
  have hvalues : e.values = a.values := by
    apply Array.ext'
    simpa using hawaits.values
  rw [Draft.close, Logged.result_bind, he]
  show Except.ok (e.shape, e.values) = _
  rw [hshape, hvalues]

/-! ## §2 Tokens on the way -/

theorem coming_nil (d : Draft) : d.coming [] = [Token.numeral d.piece] := by
  unfold coming
  cases d.spaced with
  | false => exact Token.rows_digits _
  | true =>
    simp only [if_true]
    rw [Token.rows_digits_space]
    simp [Token.rows, Token.numerals, Token.numeral]

theorem coming_rowEnd (d : Draft) (ts : List Token) :
    d.coming (.rowEnd :: ts) = Token.numeral d.piece :: Token.rows ts := by
  unfold coming
  cases d.spaced with
  | false => exact Token.rows_digits_rowEnd _ _
  | true =>
    simp only [if_true]
    rw [Token.rows_digits_space, Token.rows_rowEnd, List.modifyHead_cons, List.append_nil]

theorem coming_addSpace (d : Draft) (ts : List Token) :
    d.addSpace.coming ts = d.coming (.space :: ts) := by
  unfold coming addSpace
  cases d.spaced with
  | false => rfl
  | true =>
    simp only [if_true]
    rw [Token.rows_digits_space, Token.rows_digits_space, Token.rows_space]

theorem coming_of_piece_empty {ts : List Token} (hpiece : d.piece = "")
    (hspaced : d.spaced = false) :
    d.coming ts = Token.rows ts := by
  simp [coming, hpiece, hspaced, Token.rows_digits_empty]

theorem Expects.addSpace {ts : List Token} (h : d.Expects (.space :: ts) a) :
    d.addSpace.Expects ts a := by
  obtain ⟨row, later, hcoming, hawaits⟩ := h
  refine ⟨row, later, (coming_addSpace d ts).trans hcoming, ?_⟩
  exact ⟨hawaits.isPlain, hawaits.values, hawaits.cols, hawaits.length_later, hawaits.rows,
    hawaits.rowLength⟩

theorem Expects.join {t : Token} {ts : List Token} (hspace : t ≠ .space) (hrow : t ≠ .rowEnd)
    (hspaced : d.spaced = false) (h : d.Expects (t :: ts) a) (column : Nat) :
    (d.join t.text column).Expects ts a := by
  obtain ⟨row, later, hcoming, hawaits⟩ := h
  refine ⟨row, later, ?_, ?_⟩
  · rw [← hcoming]
    simp only [coming, Draft.join, hspaced, Bool.false_eq_true, if_false]
    exact (Token.rows_digits_cons _ hspace hrow ts).symm
  · exact ⟨hawaits.isPlain, hawaits.values, hawaits.cols, hawaits.length_later, hawaits.rows,
      hawaits.rowLength⟩

/-- Text of a numeral goes on with the number at hand, or begins the next one after a space. -/
theorem Expects.addText {t : Token} {ts : List Token} (hspace : t ≠ .space) (hrow : t ≠ .rowEnd)
    (h : d.Expects (t :: ts) a) (column : Nat) :
    ∃ e, (d.addText t.text column).toLogged.result = .ok e ∧ e.Expects ts a := by
  unfold Draft.addText
  cases hspaced : d.spaced with
  | false => exact ⟨d.join t.text column, rfl, h.join hspace hrow hspaced column⟩
  | true =>
    -- the number at hand is complete: it is the first of its row, and `first` are the others
    obtain ⟨row, later, hcoming, hawaits⟩ := h
    obtain ⟨first, rest, hrows⟩ := List.exists_cons_of_ne_nil (Token.rows_ne_nil (t :: ts))
    simp only [coming, hspaced, if_true, Token.rows_digits_space, hrows, List.modifyHead_cons,
      List.cons.injEq] at hcoming
    obtain ⟨rfl, rfl⟩ := hcoming
    obtain ⟨e, he, hawaits', hpiece, hspaced'⟩ := hawaits.flush
    have hexpects : e.Expects (t :: ts) a :=
      ⟨first, rest, (coming_of_piece_empty hpiece hspaced').trans hrows, hawaits'⟩
    refine ⟨e.join t.text column, ?_, hexpects.join hspace hrow hspaced' column⟩
    rw [if_pos rfl, Outcome.result_andThen, he]
    rfl

theorem Expects.endRow {ts : List Token} (h : d.Expects (.rowEnd :: ts) a) (hpos : 0 < a.cols)
    (column : Nat) :
    ∃ e, (d.endRow column).toLogged.result = .ok e ∧ e.Expects ts a := by
  obtain ⟨row, later, hcoming, hawaits⟩ := h
  rw [coming_rowEnd, List.cons.injEq] at hcoming
  obtain ⟨rfl, rfl⟩ := hcoming
  obtain ⟨first, rest, hrows⟩ := List.exists_cons_of_ne_nil (Token.rows_ne_nil ts)
  rw [hrows] at hawaits
  obtain ⟨e, he, hawaits', hpiece, hspaced⟩ := hawaits.endRow hpos column
  exact ⟨e, he, first, rest, (coming_of_piece_empty hpiece hspaced).trans hrows, hawaits'⟩

theorem Expects.close (h : d.Expects [] a) (hpos : 0 < a.cols) (column : Nat) :
    (d.close column).result = .ok (a.toShape, a.values) := by
  obtain ⟨row, later, hcoming, hawaits⟩ := h
  rw [coming_nil, List.cons.injEq] at hcoming
  obtain ⟨rfl, rfl⟩ := hcoming
  exact hawaits.close hpos column

/-- A token between the brackets is read without fault if the numerals that it belongs to are
awaited. -/
theorem Expects.step {t : Token} {ts : List Token} (ht : t.isPiece = true)
    (h : d.Expects (t :: ts) a) (hpos : 0 < a.cols) (column : Nat) :
    ∃ e, (Reading.stepInside d t column).result = .ok (.inside e, none) ∧ e.Expects ts a := by
  have hgoOn : ∀ {x : Outcome Draft}, (∃ e, x.toLogged.result = .ok e ∧ e.Expects ts a) →
      ∃ e, (do let next ← x.toLogged; return (Reading.inside next, none) :
          Logged (Reading × Option (Item Float))).result = .ok (.inside e, none) ∧
        e.Expects ts a := by
    rintro x ⟨e, he, hexpects⟩
    refine ⟨e, ?_, hexpects⟩
    rw [Reading.result_goOn, he]
    rfl
  cases t with
  | digits text => exact hgoOn (h.addText (by simp) (by simp) column)
  | minus => exact hgoOn (h.addText (by simp) (by simp) column)
  | rowEnd => exact hgoOn (h.endRow hpos column)
  | space => exact ⟨d.addSpace, rfl, h.addSpace⟩
  | word text => cases ht
  | plus => cases ht
  | star => cases ht
  | opening => cases ht
  | closing => cases ht
  | literalStart => cases ht
  | literalEnd => cases ht

end Draft

/-! ## §3 Whole literals -/

namespace Token

variable {cols : Nat} {body : List Token}

theorem IsBody.expects (h : IsBody cols body) : Draft.opened.Expects body (matrix cols body) := by
  obtain ⟨row, later, hrows⟩ := List.exists_cons_of_ne_nil (rows_ne_nil body)
  have hcoming : Draft.opened.coming body = row :: later :=
    (Draft.coming_of_piece_empty rfl rfl).trans hrows
  refine ⟨row, later, hcoming, ?_, ?_, ?_, ?_, ?_, ?_⟩
  · intro s hs
    exact h.isPlain s (by rwa [hrows])
  · simp [matrix, hrows, Draft.opened, Draft.empty]
  · simpa [matrix, Draft.opened, Draft.empty] using h.length_row row (by simp [hrows])
  · exact fun r hr => h.length_row r (by simp [hrows, hr])
  · simp [matrix, hrows, Draft.opened, Draft.empty, Nat.add_comm]
  · rintro n ⟨⟩

end Token

namespace Reading

/-- A draft that expects the tokens up to the end of the literal makes its matrix of them. -/
theorem items_body {d : Draft} {body : List Token} {a : DenseMatrix Float}
    (hpieces : ∀ t ∈ body, t.isPiece = true) (h : d.Expects body a) (hpos : 0 < a.cols)
    (hmatrix : DenseMatrix.ofFlat a.rows a.cols a.values = .ok a) {placed : List Placed}
    (hplaced : placed.map Placed.token = body ++ [.literalEnd]) :
    (items placed (inside d)).result = .ok ([.operand a], outside) := by
  induction body generalizing d placed with
  | nil =>
    obtain ⟨p, rfl, hp⟩ := List.map_eq_singleton_iff.1 hplaced
    have hstep : (stepInside d .literalEnd p.column).result = .ok (outside, some (.operand a)) := by
      simp only [stepInside, Logged.result_bind, h.close hpos, Except.bind, hmatrix]
    simp only [items, step, Logged.result_bind, hp, hstep]
    rfl
  | cons t body ih =>
    obtain ⟨p, rest, rfl, hp, hrest⟩ := List.map_eq_cons_iff.1 hplaced
    obtain ⟨e, hstep, he⟩ := h.step (hpieces t (by simp)) hpos p.column
    have hitems := ih (fun u hu => hpieces u (List.mem_cons_of_mem _ hu)) he hrest
    simp only [items, step, Logged.result_bind, hp, hstep, Except.bind, hitems]
    rfl

/-- A well-formed literal is read as its matrix. -/
theorem items_literal {cols : Nat} {body : List Token} (h : Token.IsBody cols body)
    (hsize : body.length + 1 < DenseMatrix.wordCount) {placed : List Placed}
    (hplaced : placed.map Placed.token = .literalStart :: (body ++ [.literalEnd])) :
    (items placed outside).result = .ok ([.operand (Token.matrix cols body)], outside) := by
  obtain ⟨p, rest, rfl, hp, hrest⟩ := List.map_eq_cons_iff.1 hplaced
  have hbody := items_body h.isPiece h.expects h.cols_pos (h.ofFlat_matrix hsize) hrest
  simp only [items, step, stepOutside, Logged.result_bind, hp, Except.bind, hbody]
  rfl

end Reading

end MatrixCalc
