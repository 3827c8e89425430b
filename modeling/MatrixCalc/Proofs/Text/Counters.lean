import MatrixCalc.Proofs.Outline.Soundness
import MatrixCalc.Proofs.Text.Scanning

/-!
# The counters of a literal

A draft counts the rows it has begun and the numbers of the last one. `Draft.Counted` says what
these counters have to do with the numbers that were read, and every move keeps it, also one that
fails. A literal that is closed is therefore a well-formed matrix, and the constructor has nothing
to object (`Reading.safe_step`). Each token brings at most one number, so the entries of a literal
can be counted if the tokens can.

§1 the counters of a draft · §2 the moves of a draft · §3 tokens
-/

namespace MatrixCalc

/-! ## §1 The counters of a draft -/

namespace Draft

/-- How many numbers there are, the one at hand included. -/
def weight (d : Draft) : Nat := d.values.size + if d.piece.isEmpty then 0 else 1

/-- All rows but the last have as many numbers as the first, if that has ended, and the first is not
empty. The numbers of the last row are counted, and there are no more numbers than `k`. -/
structure Counted (k : Nat) (d : Draft) : Prop where
  rows_pos : 0 < d.rows
  first : d.rowLength? = none → d.rows = 1
  length_pos : ∀ n, d.rowLength? = some n → 0 < n
  size_values : d.values.size = (d.rows - 1) * d.rowLength?.getD 0 + d.cols
  weight_le : d.weight ≤ k

theorem counted_opened : Counted 0 opened where
  rows_pos := Nat.one_pos
  first _ := rfl
  length_pos _ h := nomatch h
  size_values := rfl
  weight_le := Nat.le_refl 0

variable {d : Draft} {k : Nat}

theorem Counted.mono (h : d.Counted k) {l : Nat} (hkl : k ≤ l) : d.Counted l :=
  ⟨h.rows_pos, h.first, h.length_pos, h.size_values, h.weight_le.trans hkl⟩

theorem Counted.spaced (h : d.Counted k) (b : Bool) : Counted k { d with spaced := b } :=
  ⟨h.rows_pos, h.first, h.length_pos, h.size_values, h.weight_le⟩

/-- Text is at most one more number. -/
theorem Counted.join (h : d.Counted k) (text : String) (column : Nat) :
    Counted (k + 1) (d.join text column) := by
  refine ⟨h.rows_pos, h.first, h.length_pos, h.size_values, ?_⟩
  have hweight : d.values.size ≤ k := (Nat.le_add_right _ _).trans h.weight_le
  show d.values.size + _ ≤ k + 1
  split <;> omega

/-! ## §2 The moves of a draft -/

/-- The number at hand becomes the last number of the row, or it stays at hand. -/
theorem keeps_flush (h : d.Counted k) : d.flush.Keeps (Counted k) := by
  unfold flush
  by_cases hpiece : d.piece.isEmpty = true
  · rw [if_pos hpiece]
    exact Outcome.keeps_done (h.spaced false) []
  rw [if_neg hpiece]
  cases hread : Numeral.read? d.piece with
  | none => exact Outcome.keeps_failed (h.spaced false) not_false
  | some value =>
    refine Outcome.keeps_done ⟨h.rows_pos, h.first, h.length_pos, ?_, ?_⟩ _
    · have hsize := h.size_values
      simp only [Array.size_push]
      omega
    · have hweight := h.weight_le
      rw [weight, if_neg hpiece] at hweight
      simpa [weight] using hweight

theorem keeps_addText (h : d.Counted k) (text : String) (column : Nat) :
    (d.addText text column).Keeps (Counted (k + 1)) := by
  have hfirst : (if d.spaced then d.flush else .done d []).Keeps (Counted k) := by
    split
    · exact keeps_flush h
    · exact Outcome.keeps_done h []
  exact hfirst.andThen_of_imp (fun e he => he.mono (Nat.le_succ k))
    fun e he => Outcome.keeps_done (he.join text column) []

theorem keeps_fixRowLength (h : d.Counted k) (column : Nat) :
    (d.fixRowLength column).Keeps (Counted k) := by
  unfold fixRowLength
  by_cases hcols : d.cols = 0
  · rw [if_pos hcols]
    exact Outcome.keeps_failed h not_false
  rw [if_neg hcols]
  cases hlength : d.rowLength? with
  | none =>
    refine Outcome.keeps_done ⟨h.rows_pos, (fun hnone => nomatch hnone), fun n hn => ?_, ?_,
      h.weight_le⟩ []
    · exact Option.some.inj hn ▸ Nat.pos_of_ne_zero hcols
    · have hsize := h.size_values
      rw [h.first hlength] at hsize ⊢
      simpa using hsize
  | some expected =>
    dsimp only
    by_cases hsame : expected = d.cols
    · rw [if_pos hsame]
      exact Outcome.keeps_done h []
    · rw [if_neg hsame]
      exact Outcome.keeps_failed h not_false

theorem keeps_settle (h : d.Counted k) (column : Nat) : (d.settle column).Keeps (Counted k) :=
  (keeps_flush h).andThen fun _ he => keeps_fixRowLength he column

/-- A row that has ended is as long as the first, and not empty. -/
theorem rowLength_of_settle {e : Draft} {column : Nat}
    (h : (d.settle column).toLogged.result = .ok e) :
    0 < e.cols ∧ e.rowLength? = some e.cols := by
  rw [settle, Outcome.result_andThen] at h
  obtain ⟨f, -, hf⟩ := bind_eq_ok_iff.1 h
  obtain ⟨hpos, -, rfl⟩ := fixRowLength_eq_ok hf
  exact ⟨hpos, rfl⟩

theorem keeps_endRow (h : d.Counted k) (column : Nat) : (d.endRow column).Keeps (Counted k) := by
  have hsettle := keeps_settle h column
  unfold endRow Outcome.andThen
  cases hf : (d.settle column).fault? with
  | some f => exact hsettle
  | none =>
    obtain ⟨-, hlength⟩ := rowLength_of_settle (Outcome.result_eq_ok_iff.2 ⟨hf, rfl⟩)
    have hlast := hsettle.state
    refine (Outcome.keeps_done ⟨Nat.succ_pos _, fun hnone => ?_, hlast.length_pos, ?_,
      hlast.weight_le⟩ _).after _
    · rw [hlength] at hnone
      cases hnone
    · -- the last row is as long as all the others
      have hsize := hlast.size_values
      rw [hlength, Option.getD_some] at hsize ⊢
      rw [hsize, Nat.add_sub_cancel, Nat.add_zero, ← Nat.succ_mul, Nat.succ_eq_add_one,
        Nat.sub_add_cancel hlast.rows_pos]

/-- A literal that ends has a number for every place of its shape. -/
theorem safe_close (h : d.Counted k) (column : Nat) :
    Safe (fun x => (⟨x.1, x.2⟩ : DenseMatrix Float).WellFormed ∧ x.2.size ≤ k)
      (d.close column).result := by
  rw [close, Logged.result_bind]
  cases he : (d.settle column).toLogged.result with
  | error f => exact (keeps_settle h column).safe.of_error he
  | ok e =>
    obtain ⟨hpos, hlength⟩ := rowLength_of_settle he
    have hlast : e.Counted k := (keeps_settle h column).safe.of_ok he
    refine ⟨⟨hlast.rows_pos, ?_, ?_⟩, (Nat.le_add_right _ _).trans hlast.weight_le⟩
    · simpa [shape, hlength] using hpos
    · have hsize := hlast.size_values
      rw [hlength, Option.getD_some, ← Nat.succ_mul, Nat.succ_eq_add_one,
        Nat.sub_add_cancel hlast.rows_pos] at hsize
      simpa [shape, hlength] using hsize

end Draft

/-! ## §3 Tokens -/

namespace Reading

/-- If a literal is open, its counters are right. -/
def Counted (k : Nat) : Reading → Prop
  | outside => True
  | inside d => d.Counted k

/-- Where reading stands after a token, and a matrix that the token completes is well formed. -/
def Goes (k : Nat) (x : Reading × Option (Item Float)) : Prop :=
  x.1.Counted (k + 1) ∧ ∀ item ∈ x.2, item.IsWellFormed

theorem safe_refuse {β : Type} {P : β → Prop} (cause : TextCause) (column : Nat) :
    Safe P (refuse cause column).result :=
  not_false

theorem safe_stepOutside (k : Nat) (token : Token) (column : Nat) :
    Safe (Goes k) (stepOutside token column).result := by
  have hemit (op : Operator) : Goes k (outside, some (.operator op)) :=
    ⟨trivial, fun item hitem a ha => by cases hitem; cases ha⟩
  cases token with
  | word text =>
    cases ho : operatorOf text column with
    | ok op =>
      simp only [stepOutside, ho]
      exact hemit op
    | error f =>
      simp only [stepOutside, ho]
      exact not_false
  | digits text => exact safe_refuse _ column
  | minus => exact hemit _
  | plus => exact hemit _
  | star => exact hemit _
  | opening => exact hemit _
  | closing => exact hemit _
  | literalStart => exact ⟨Draft.counted_opened.mono (Nat.zero_le _), fun _ h => by cases h⟩
  | literalEnd => exact safe_refuse _ column
  | rowEnd => exact safe_refuse _ column
  | space => exact ⟨trivial, fun _ h => by cases h⟩

variable {d : Draft} {k : Nat}

theorem safe_stepInside (h : d.Counted k) (hk : k < DenseMatrix.wordCount) (token : Token)
    (column : Nat) : Safe (Goes k) (stepInside d token column).result := by
  have hgoOn {x : Outcome Draft} (hx : x.Keeps (Draft.Counted (k + 1))) :
      Safe (Goes k) (x.toLogged >>= fun next =>
        (pure (inside next, none) : Logged (Reading × Option (Item Float)))).result := by
    rw [Logged.result_bind]
    exact hx.safe.bind fun e he => ⟨he, fun _ hitem => by cases hitem⟩
  have hmono (e : Draft) (he : e.Counted k) : e.Counted (k + 1) := he.mono (Nat.le_succ k)
  cases token with
  | digits text => exact hgoOn (Draft.keeps_addText h text column)
  | minus => exact hgoOn (Draft.keeps_addText h "-" column)
  | space => exact ⟨hmono _ (h.spaced true), fun _ hitem => by cases hitem⟩
  | rowEnd => exact hgoOn ((Draft.keeps_endRow h column).mono hmono)
  | literalEnd =>
    show Safe _ (d.close column >>= _).result
    rw [Logged.result_bind]
    refine (Draft.safe_close h column).bind fun x hx => ?_
    obtain ⟨shape, values⟩ := x
    obtain ⟨hwell, hsize⟩ := hx
    have hcount : shape.rows * shape.cols < DenseMatrix.wordCount :=
      Nat.lt_of_le_of_lt (hwell.size_values.symm.le.trans hsize) hk
    have hflat : DenseMatrix.ofFlat shape.rows shape.cols values = .ok ⟨shape, values⟩ :=
      DenseMatrix.ofFlat_of_wellFormed hwell hcount
    simp only [hflat]
    exact ⟨trivial, fun item hitem a ha => by cases hitem; cases ha; exact hwell⟩
  | word text =>
    cases ho : operatorOf text column with
    | ok op =>
      simp only [stepInside, ho]
      exact safe_refuse _ column
    | error f =>
      simp only [stepInside, ho]
      exact not_false
  | plus => exact safe_refuse _ column
  | star => exact safe_refuse _ column
  | opening => exact safe_refuse _ column
  | closing => exact safe_refuse _ column
  | literalStart => exact safe_refuse _ column

/-- A token leaves the counters right, completes only well-formed matrices and fails only for
something in the text. -/
theorem safe_step {r : Reading} (h : r.Counted k) (hk : k < DenseMatrix.wordCount) (token : Token)
    (column : Nat) : Safe (Goes k) (r.step token column).result := by
  cases r with
  | inside d => exact safe_stepInside h hk token column
  | outside => exact safe_stepOutside k token column

end Reading

end MatrixCalc
