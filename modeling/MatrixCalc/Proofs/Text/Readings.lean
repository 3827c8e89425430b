import Mathlib.Data.List.Induction
import MatrixCalc.Proofs.Outline.Warnings
import MatrixCalc.Proofs.Storage.Views
import MatrixCalc.Proofs.Text.Scanning

/-!
# The notes on literals

While a literal is read there is a note on each of its numbers, with the row counted from one and
the column counted from zero. A draft keeps these counts beside one array of numbers. `Draft.Holds`
says which rows the array stands for, and `Draft.Told` that the notes so far tell these rows.

So the notes on a literal, when it is closed, are those on the entries of its matrix row by row,
each with the entry that stands in the row and the column it names (`Draft.Told.close`). With the
next item that is complete the notes begin anew (`Reading.tells_step`).

§1 numbers of rows · §2 drafts · §3 tokens
-/

namespace MatrixCalc

/-! ## §1 Numbers of rows -/

/-- The notes on the numbers of a row, which are counted from zero; the rows are counted from
one. -/
def Note.ofRow (i : Nat) (row : List Float) : List Note :=
  row.mapIdx fun j value => .valueRead value (i + 1) j

/-- The notes on the numbers of some rows. -/
def Note.ofRows (rows : List (List Float)) : List Note := (rows.mapIdx Note.ofRow).flatten

namespace Note

theorem ofRows_append_number (rows : List (List Float)) (last : List Float) (value : Float) :
    ofRows (rows ++ [last ++ [value]]) =
      ofRows (rows ++ [last]) ++ [.valueRead value (rows.length + 1) last.length] := by
  simp [ofRows, ofRow, List.mapIdx_concat]

theorem ofRows_append_row (rows : List (List Float)) : ofRows (rows ++ [[]]) = ofRows rows := by
  simp [ofRows, ofRow, List.mapIdx_concat]

end Note

/-- A list is rebuilt from its places. -/
theorem filterMap_range_getElem? {β γ : Type} (f : Nat → β → γ) (xs : List β) :
    (List.range xs.length).filterMap (fun j => xs[j]?.map (f j)) = xs.mapIdx f := by
  induction xs using List.reverseRecOn with
  | nil => rfl
  | append_singleton xs x ih =>
    have hbefore : (List.range xs.length).filterMap (fun j => (xs ++ [x])[j]?.map (f j)) =
        (List.range xs.length).filterMap (fun j => xs[j]?.map (f j)) := by
      refine List.filterMap_congr fun j hj => ?_
      rw [List.getElem?_append_left (List.mem_range.1 hj)]
    rw [List.length_append, List.length_singleton, List.range_succ, List.filterMap_append, hbefore,
      ih, List.mapIdx_concat]
    simp

namespace DenseMatrix

/-- The notes on the entries of a matrix that is read: row by row, each with its row counted from
one and its column counted from zero. -/
def readNotes (a : DenseMatrix Float) : List Note :=
  (List.range a.rows).flatMap fun i =>
    (List.range a.cols).filterMap fun j => (a.get? i j).map fun value => .valueRead value (i + 1) j

/-- The entries of a matrix are the numbers of its rows. -/
theorem readNotes_eq {a : DenseMatrix Float} {rows : List (List Float)} (h : a.HasRows rows)
    (hfits : a.values.size < wordCount) : a.readNotes = Note.ofRows rows := by
  rw [readNotes, List.flatMap_def, Note.ofRows, ← filterMap_range_getElem?, ← List.filterMap_eq_map,
    h.count]
  refine congrArg List.flatten (List.filterMap_congr fun i hi => ?_)
  have hi' : i < rows.length := List.mem_range.1 hi
  have hrow : rows[i].length = a.cols := h.length _ (List.getElem_mem hi')
  rw [List.getElem?_eq_getElem hi', Option.map_some, Note.ofRow, ← filterMap_range_getElem?, hrow]
  refine congrArg some (List.filterMap_congr fun j _ => ?_)
  rw [h.get?_eq hfits, List.getElem?_eq_getElem hi', Option.bind_some]

end DenseMatrix

/-! ## §2 Drafts -/

/-- A matrix that is read from a literal is well formed, and there is an entry at each place. -/
def Item.IsRead (item : Item Float) : Prop :=
  ∀ a ∈ item.operand?, a.WellFormed ∧
    ∀ i < a.rows, ∀ j < a.cols, (a.get? i j).isSome = true

/-- Whether a note is on what comes from the text: on its beginning, a number or an item. -/
def Note.isInput : Note → Bool
  | evaluating _ | valueRead _ _ _ | operand _ | operator _ => true
  | _ => false

/-- The notes on what comes from the text. -/
def Note.inputs (notes : List Note) : List Note := notes.filter Note.isInput

theorem Note.inputs_append (xs ys : List Note) : inputs (xs ++ ys) = inputs xs ++ inputs ys :=
  List.filter_append _ _

namespace Draft

variable {d e : Draft} {notes : List Note}

/-- The numbers of a draft are those of some rows that have ended, all as long as the first, and
those of the last row. -/
structure Holds (ended : List (List Float)) (last : List Float) (d : Draft) : Prop where
  values : d.values.toList = ended.flatten ++ last
  rows : d.rows = ended.length + 1
  cols : d.cols = last.length
  rowLength : ∀ row ∈ ended, d.rowLength? = some row.length

/-- The notes tell the numbers of a draft. -/
def Told (notes : List Note) (d : Draft) : Prop :=
  ∃ ended last, d.Holds ended last ∧ notes = Note.ofRows (ended ++ [last])

theorem told_opened : opened.Told [] := ⟨[], [], ⟨rfl, rfl, rfl, by simp⟩, rfl⟩

theorem Told.join (h : d.Told notes) (text : String) (column : Nat) :
    (d.join text column).Told notes := by
  obtain ⟨ended, last, hd, rfl⟩ := h
  exact ⟨ended, last, ⟨hd.values, hd.rows, hd.cols, hd.rowLength⟩, rfl⟩

theorem Told.addSpace (h : d.Told notes) : d.addSpace.Told notes := by
  obtain ⟨ended, last, hd, rfl⟩ := h
  exact ⟨ended, last, ⟨hd.values, hd.rows, hd.cols, hd.rowLength⟩, rfl⟩

/-- A number that ends is told. -/
theorem Told.flush (h : d.Told notes) (he : d.flush.toLogged.result = .ok e) :
    e.Told (notes ++ Note.inputs d.flush.notes) := by
  obtain ⟨ended, last, hd, rfl⟩ := h
  unfold Draft.flush at he ⊢
  by_cases hpiece : d.piece.isEmpty = true
  · rw [if_pos hpiece] at he ⊢
    cases he
    exact ⟨ended, last, ⟨hd.values, hd.rows, hd.cols, hd.rowLength⟩, List.append_nil _⟩
  rw [if_neg hpiece] at he ⊢
  cases hread : Numeral.read? d.piece with
  | none =>
    rw [hread] at he
    cases he
  | some value =>
    rw [hread] at he
    cases he
    refine ⟨ended, last ++ [value], ⟨?_, hd.rows, ?_, hd.rowLength⟩, ?_⟩
    · show (d.values.push value).toList = _
      rw [Array.toList_push, hd.values, List.append_assoc]
    · show d.cols + 1 = _
      rw [hd.cols, List.length_append, List.length_singleton]
    · rw [Note.ofRows_append_number, ← hd.rows, ← hd.cols]
      rfl

theorem Told.addText {text : String} {column : Nat} (h : d.Told notes)
    (he : (d.addText text column).toLogged.result = .ok e) :
    e.Told (notes ++ Note.inputs (d.addText text column).notes) := by
  unfold Draft.addText at he ⊢
  cases hspaced : d.spaced with
  | false =>
    rw [hspaced] at he
    cases he
    exact (List.append_nil notes).symm ▸ h.join text column
  | true =>
    rw [hspaced, if_pos rfl, Outcome.result_andThen] at he
    obtain ⟨f, hf, he⟩ := bind_eq_ok_iff.1 he
    cases he
    obtain ⟨hfault, -⟩ := Outcome.result_eq_ok_iff.1 hf
    rw [if_pos rfl, Outcome.notes_andThen hfault, Note.inputs_append]
    have hnone : Note.inputs (Outcome.done (d.flush.state.join text column) []).notes = [] := rfl
    rw [hnone, List.append_nil]
    exact (h.flush hf).join text column

theorem notes_fixRowLength (column : Nat) (d : Draft) : (d.fixRowLength column).notes = [] := by
  unfold fixRowLength
  split
  · rfl
  split
  · rfl
  · split <;> rfl

/-- A row that ends is told, and it is as long as all the others. -/
theorem Told.settle {column : Nat} (h : d.Told notes)
    (he : (d.settle column).toLogged.result = .ok e) :
    ∃ ended last, e.Holds ended last ∧ e.rowLength? = some last.length ∧
      (∀ row ∈ ended ++ [last], row.length = last.length) ∧
      notes ++ Note.inputs (d.settle column).notes = Note.ofRows (ended ++ [last]) := by
  unfold Draft.settle at he ⊢
  rw [Outcome.result_andThen] at he
  obtain ⟨f, hf, he⟩ := bind_eq_ok_iff.1 he
  obtain ⟨hfault, hstate⟩ := Outcome.result_eq_ok_iff.1 hf
  obtain ⟨-, hfixed, rfl⟩ := fixRowLength_eq_ok he
  obtain ⟨ended, last, hholds, htold⟩ := h.flush hf
  have hlength : ∀ row ∈ ended ++ [last], row.length = last.length := by
    intro row hrow
    rcases List.mem_append.1 hrow with hrow | hrow
    · rw [← hholds.cols]
      exact hfixed _ (hholds.rowLength row hrow)
    · rw [List.mem_singleton.1 hrow]
  refine ⟨ended, last, ⟨hholds.values, hholds.rows, hholds.cols, fun row hrow => ?_⟩,
    congrArg some hholds.cols, hlength, ?_⟩
  · rw [hlength row (List.mem_append_left _ hrow), ← hholds.cols]
  · rw [Outcome.notes_andThen hfault, notes_fixRowLength, List.append_nil, htold]

theorem Told.endRow {column : Nat} (h : d.Told notes)
    (he : (d.endRow column).toLogged.result = .ok e) :
    e.Told (notes ++ Note.inputs (d.endRow column).notes) := by
  unfold Draft.endRow at he ⊢
  rw [Outcome.result_andThen] at he
  obtain ⟨f, hf, he⟩ := bind_eq_ok_iff.1 he
  cases he
  obtain ⟨hfault, -⟩ := Outcome.result_eq_ok_iff.1 hf
  obtain ⟨ended, last, hholds, hrow, hlength, htold⟩ := h.settle hf
  refine ⟨ended ++ [last], [], ⟨?_, ?_, rfl, fun row hmem => ?_⟩, ?_⟩
  · show f.values.toList = (ended ++ [last]).flatten ++ []
    simpa using hholds.values
  · show f.rows + 1 = _
    rw [hholds.rows, List.length_append, List.length_singleton]
  · rw [hlength row hmem]
    exact hrow
  · rw [Outcome.notes_andThen hfault, Note.inputs_append, ← List.append_assoc, htold,
      Note.ofRows_append_row]
    exact List.append_nil _

/-- When the literal ends, its notes are those on the entries of its matrix. -/
theorem Told.close {column : Nat} {shape : Shape} {values : Array Float} {a : DenseMatrix Float}
    (h : d.Told notes) (he : (d.close column).result = .ok (shape, values))
    (ha : DenseMatrix.ofFlat shape.rows shape.cols values = .ok a) :
    (Item.operand a).IsRead ∧ notes ++ Note.inputs (d.close column).notes = a.readNotes := by
  unfold Draft.close at he ⊢
  rw [Logged.result_bind] at he
  obtain ⟨e, hsettle, he⟩ := bind_eq_ok_iff.1 he
  cases he
  obtain ⟨ended, last, hholds, hrow, hlength, htold⟩ := h.settle hsettle
  obtain ⟨hrowsPos, hcolsPos, hsize, rfl⟩ := DenseMatrix.ofFlat_eq_ok_iff.1 ha
  have hfull := (DenseMatrix.holds_all_iff_of_ofFlat ha).2.2
  have hrows : DenseMatrix.HasRows ⟨e.shape, e.values⟩ (ended ++ [last]) := by
    refine ⟨?_, fun row hmem => ?_, by simpa using hholds.values⟩
    · rw [List.length_append, List.length_singleton]
      exact hholds.rows
    · show row.length = e.rowLength?.getD e.cols
      rw [hrow, Option.getD_some]
      exact hlength row hmem
  have hcount : e.values.size = e.shape.rows * e.shape.cols := hrows.size_values
  have hfits : e.shape.rows * e.shape.cols < DenseMatrix.wordCount :=
    DenseMatrix.word_eq_self_iff.1 (hsize.symm.trans hcount)
  refine ⟨?_, ?_⟩
  · rintro b ⟨⟩
    exact ⟨⟨hrowsPos, hcolsPos, hcount⟩, hfull.2 hfits⟩
  · have hnotes : ((d.settle column).toLogged >>= fun last =>
        (pure (last.shape, last.values) : Logged (Shape × Array Float))).notes =
          (d.settle column).notes := by
      rw [Logged.notes_bind_of_ok hsettle]
      exact List.append_nil _
    rw [hnotes, htold]
    exact (DenseMatrix.readNotes_eq hrows (hcount ▸ hfits)).symm

end Draft

/-! ## §3 Tokens -/

/-- The notes on an item: those on its numbers if it is read from a literal, and the one on its
arrival. -/
def Item.inputNotes : Item Float → List Note
  | .operator op => [.operator op]
  | .operand a => a.readNotes ++ [.operand a.toShape]

namespace Reading

/-- If a literal is open, the notes tell its numbers; otherwise there are none. -/
def Told (notes : List Note) : Reading → Prop
  | outside => notes = []
  | inside d => d.Told notes

/-- What the notes come to with the next token: if it completes an item, they are all on that item
and reading is outside, and otherwise they go on. -/
def Tells (notes : List Note) (x : Reading × Option (Item Float)) : Prop :=
  match x.2 with
  | none => x.1.Told notes
  | some item => x.1 = outside ∧ item.IsRead ∧ notes ++ [item.note] = item.inputNotes

variable {notes : List Note} {d : Draft} {t : Token} {column : Nat}
  {x : Reading × Option (Item Float)}

theorem tells_stepOutside (h : (stepOutside t column).result = .ok x) :
    Tells (Note.inputs (stepOutside t column).notes) x := by
  have hemit (op : Operator) : Tells (Note.inputs []) (outside, some (.operator op)) :=
    ⟨rfl, (fun _ ha => nomatch ha), rfl⟩
  cases t with
  | word text =>
    unfold stepOutside at h ⊢
    cases hword : operatorOf text column with
    | error f => simp only [hword] at h; cases h
    | ok op =>
      simp only [hword] at h ⊢
      cases h
      exact hemit op
  | minus => cases h; exact hemit _
  | plus => cases h; exact hemit _
  | star => cases h; exact hemit _
  | opening => cases h; exact hemit _
  | closing => cases h; exact hemit _
  | literalStart => cases h; exact Draft.told_opened
  | space => cases h; rfl
  | digits text => cases h
  | literalEnd => cases h
  | rowEnd => cases h

theorem tells_stepInside (hd : d.Told notes) (h : (stepInside d t column).result = .ok x) :
    Tells (notes ++ Note.inputs (stepInside d t column).notes) x := by
  -- a move of the draft that leaves the literal open
  have hgoOn {y : Outcome Draft}
      (htold : ∀ e, y.toLogged.result = .ok e → e.Told (notes ++ Note.inputs y.notes))
      (hy : (y.toLogged >>= fun next => (pure (inside next, none) : Logged (Reading ×
        Option (Item Float)))).result = .ok x) :
      Tells (notes ++ Note.inputs (y.toLogged >>= fun next =>
        (pure (inside next, none) : Logged (Reading × Option (Item Float)))).notes) x := by
    rw [Logged.result_bind] at hy
    obtain ⟨e, he, hx⟩ := bind_eq_ok_iff.1 hy
    cases hx
    rw [Logged.notes_bind_of_ok he, Logged.notes_pure, List.append_nil]
    exact htold e he
  cases t with
  | digits text => exact hgoOn (fun e he => hd.addText he) h
  | minus => exact hgoOn (fun e he => hd.addText he) h
  | rowEnd => exact hgoOn (fun e he => hd.endRow he) h
  | space =>
    cases h
    exact (List.append_nil notes).symm ▸ hd.addSpace
  | literalEnd =>
    unfold stepInside at h ⊢
    dsimp only at h ⊢
    rw [Logged.result_bind] at h
    obtain ⟨⟨shape, values⟩, hclose, h⟩ := bind_eq_ok_iff.1 h
    rw [Logged.notes_bind_of_ok hclose]
    cases hmatrix : DenseMatrix.ofFlat shape.rows shape.cols values with
    | error f =>
      simp only [hmatrix] at h
      cases h
    | ok a =>
      simp only [hmatrix] at h ⊢
      cases h
      obtain ⟨hread, hnotes⟩ := hd.close hclose hmatrix
      refine ⟨rfl, hread, ?_⟩
      rw [Note.inputs_append, ← List.append_assoc, hnotes]
      exact congrArg (· ++ _) (List.append_nil _)
  | word text =>
    unfold stepInside at h
    cases hword : operatorOf text column with
    | ok op => simp only [hword] at h; cases h
    | error f => simp only [hword] at h; cases h
  | plus => cases h
  | star => cases h
  | opening => cases h
  | closing => cases h
  | literalStart => cases h

/-- A token adds its notes to those before it. -/
theorem tells_step {r : Reading} (hr : r.Told notes) (h : (r.step t column).result = .ok x) :
    Tells (notes ++ Note.inputs (r.step t column).notes) x := by
  cases r with
  | inside d => exact tells_stepInside hr h
  | outside =>
    obtain rfl : notes = [] := hr
    exact tells_stepOutside h

end Reading

end MatrixCalc
