import MatrixCalc.Proofs.Storage.Access

/-!
# Sizes in a word

The constructors from entries and of zeros multiply the row count with the column count in a 64-bit
word. What they admit is a matrix as long as the product fits into the word. If it does not, they
admit a shape with the entries that are left over modulo `2 ^ 64`, and not all places of that shape
have an entry (`DenseMatrix.constructors_count_in_word`).

§1 counts modulo the word · §2 what the constructors admit
-/

namespace MatrixCalc

namespace DenseMatrix

variable {α : Type} {rows cols : Nat}

/-! ## §1 Counts modulo the word -/

/-- A count is its own value in a word exactly if it fits. -/
theorem word_eq_self_iff {n : Nat} : word n = n ↔ n < wordCount :=
  ⟨fun h => h ▸ Nat.mod_lt n (by decide), word_of_lt⟩

/-- The entries that a word counts are there for all places exactly if the places fit into a word.
Otherwise the place whose position is that count has none. -/
theorem isSome_get?_iff {values : Array α} (hcols : 0 < cols)
    (hsize : values.size = word (rows * cols)) :
    (∀ r < rows, ∀ c < cols, ((⟨⟨rows, cols⟩, values⟩ : DenseMatrix α).get? r c).isSome = true) ↔
      rows * cols < wordCount := by
  constructor
  · intro h
    by_contra hover
    have hlt : values.size < wordCount := hsize ▸ Nat.mod_lt _ (by decide)
    have hrow : values.size / cols < rows :=
      Nat.div_lt_of_lt_mul (by rw [Nat.mul_comm]; omega)
    have hcol : values.size % cols < cols := Nat.mod_lt _ hcols
    have hplace : values.size / cols * cols + values.size % cols = values.size := by
      rw [Nat.mul_comm]
      exact Nat.div_add_mod _ _
    have hsome := h _ hrow _ hcol
    rw [get?, if_neg (by simp only; omega)] at hsome
    simp only [hplace, word_of_lt hlt, Array.getElem?_size, Option.isSome_none] at hsome
    cases hsome
  · intro hfits r hr c hc
    have hposition : r * cols + c < rows * cols := Grid.position_lt ⟨r, hr⟩ ⟨c, hc⟩
    rw [word_of_lt hfits] at hsize
    rw [get?, if_neg (by simp only; omega), word_of_lt (hposition.trans hfits),
      Array.getElem?_eq_getElem (hsize ▸ hposition), Option.isSome_some]

/-! ## §2 What the constructors admit -/

theorem ofFlat_eq_ok_iff {values : Array α} {a : DenseMatrix α} :
    ofFlat rows cols values = .ok a ↔
      0 < rows ∧ 0 < cols ∧ values.size = word (rows * cols) ∧ a = ⟨⟨rows, cols⟩, values⟩ := by
  unfold ofFlat
  by_cases hempty : rows = 0 ∨ cols = 0
  · rw [if_pos hempty]
    exact iff_of_false nofun fun h => by omega
  rw [if_neg hempty]
  have hpos : 0 < rows ∧ 0 < cols := by omega
  by_cases hsize : values.size = word (rows * cols)
  · rw [if_neg (not_not.2 hsize), Except.ok.injEq]
    exact ⟨fun h => ⟨hpos.1, hpos.2, hsize, h.symm⟩, fun h => h.2.2.2.symm⟩
  · rw [if_pos hsize]
    exact iff_of_false nofun fun h => hsize h.2.2.1

theorem ofFlat_eq_empty_iff {values : Array α} :
    ofFlat rows cols values = .error .emptyMatrix ↔ rows = 0 ∨ cols = 0 := by
  unfold ofFlat
  by_cases hempty : rows = 0 ∨ cols = 0
  · rw [if_pos hempty]
    exact iff_of_true rfl hempty
  · rw [if_neg hempty]
    refine iff_of_false ?_ hempty
    split <;> nofun

/-- The fault of a wrong count tells how many whole rows the entries fill and how many are left. -/
theorem ofFlat_eq_ragged {values : Array α} (hrows : 0 < rows) (hcols : 0 < cols)
    (hsize : values.size ≠ word (rows * cols)) :
    ∃ row found, ofFlat rows cols values = .error (.raggedRows row cols found) ∧
      row * cols + found = values.size ∧ found < cols := by
  refine ⟨values.size / cols, values.size % cols, ?_, ?_, Nat.mod_lt _ hcols⟩
  · rw [ofFlat, if_neg (by omega), if_pos hsize]
  · rw [Nat.mul_comm]
    exact Nat.div_add_mod _ _

/-- What is admitted has the right number of entries, and one for each place, exactly if that number
fits into a word. -/
theorem holds_all_iff_of_ofFlat {values : Array α} {a : DenseMatrix α}
    (h : ofFlat rows cols values = .ok a) :
    a.toShape = ⟨rows, cols⟩ ∧ (a.values.size = rows * cols ↔ rows * cols < wordCount) ∧
      ((∀ r < rows, ∀ c < cols, (a.get? r c).isSome = true) ↔ rows * cols < wordCount) := by
  obtain ⟨-, hcols, hsize, rfl⟩ := ofFlat_eq_ok_iff.1 h
  refine ⟨rfl, ?_, isSome_get?_iff hcols hsize⟩
  rw [← word_eq_self_iff, ← hsize]

variable [Scalar α]

theorem zeros_eq_ok_iff {a : DenseMatrix α} :
    zeros rows cols = .ok a ↔
      ofFlat rows cols (Array.replicate (word (rows * cols)) 0) = .ok a := by
  rw [ofFlat_eq_ok_iff, Array.size_replicate, zeros]
  by_cases hempty : rows = 0 ∨ cols = 0
  · rw [if_pos hempty]
    exact iff_of_false nofun fun h => by omega
  · rw [if_neg hempty, Except.ok.injEq]
    exact ⟨fun h => ⟨by omega, by omega, rfl, h.symm⟩, fun h => h.2.2.2.symm⟩

theorem zeros_eq_empty_iff :
    zeros (α := α) rows cols = .error .emptyMatrix ↔ rows = 0 ∨ cols = 0 := by
  rw [zeros]
  by_cases hempty : rows = 0 ∨ cols = 0
  · rw [if_pos hempty]
    exact iff_of_true rfl hempty
  · rw [if_neg hempty]
    exact iff_of_false nofun hempty

theorem size_values_of_identity {size : Nat} {e : DenseMatrix α} (h : identity size = .ok e) :
    e.toShape = ⟨size, size⟩ ∧ e.values.size = word (size * size) := by
  rw [identity] at h
  by_cases hzero : size = 0
  · rw [if_pos hzero] at h
    cases h
  · rw [if_neg hzero] at h
    cases h
    refine ⟨rfl, List.foldlRecOn (motive := fun values : Array α => values.size =
      word (size * size)) (List.range' 0 size) _ Array.size_replicate fun values hvalues i _ => ?_⟩
    rw [Array.size_setIfInBounds, hvalues]

/-- An identity with more entries than a word counts does not have them all. -/
theorem not_wellFormed_of_identity {size : Nat} {e : DenseMatrix α} (h : identity size = .ok e)
    (hover : wordCount ≤ size * size) : ¬ e.WellFormed := by
  intro hwell
  obtain ⟨hshape, hvalues⟩ := size_values_of_identity h
  have hrows : e.rows = size := congrArg Shape.rows hshape
  have hcols : e.cols = size := congrArg Shape.cols hshape
  have hall : word (size * size) = size * size := by
    rw [← hvalues, hwell.size_values, hrows, hcols]
  exact absurd (word_eq_self_iff.1 hall) (Nat.not_lt.2 hover)

/-- The constructor from entries counts modulo `2 ^ 64`: it admits entries for a shape that is not
empty exactly if there are as many as the word says, names an empty shape, and otherwise tells how
many rows the entries fill. It admits exactly the entries that fill the shape if the places of the
shape fit into a word, or if not even the word counts the entries right; a list in memory has fewer
than `2 ^ 64` of them. What is admitted, and the matrix of zeros as well, has the right number of
entries exactly if that number fits into a word, and otherwise some place has no entry. -/
theorem constructors_count_in_word (rows cols : Nat) (values : Array α)
    (hvalues : values.size < wordCount) :
    ((∃ a, ofFlat rows cols values = .ok a) ↔
      0 < rows ∧ 0 < cols ∧ values.size = word (rows * cols)) ∧
    (ofFlat rows cols values = .error .emptyMatrix ↔ rows = 0 ∨ cols = 0) ∧
    (0 < rows → 0 < cols → values.size ≠ word (rows * cols) →
      ∃ row found, ofFlat rows cols values = .error (.raggedRows row cols found) ∧
        row * cols + found = values.size ∧ found < cols) ∧
    (((∃ a, ofFlat rows cols values = .ok a) ↔
        0 < rows ∧ 0 < cols ∧ values.size = rows * cols) ↔
      rows * cols < wordCount ∨ values.size ≠ word (rows * cols)) ∧
    (zeros (α := α) rows cols = .error .emptyMatrix ↔ rows = 0 ∨ cols = 0) ∧
    ∀ a : DenseMatrix α, ofFlat rows cols values = .ok a ∨ zeros rows cols = .ok a →
      a.toShape = ⟨rows, cols⟩ ∧
      (a.values.size = rows * cols ↔ rows * cols < wordCount) ∧
      ((∀ r < rows, ∀ c < cols, (a.get? r c).isSome = true) ↔ rows * cols < wordCount) := by
  have hadmits : (∃ a, ofFlat rows cols values = .ok a) ↔
      0 < rows ∧ 0 < cols ∧ values.size = word (rows * cols) := by
    simp only [ofFlat_eq_ok_iff, exists_and_left, exists_eq, and_true]
  refine ⟨hadmits, ofFlat_eq_empty_iff, ofFlat_eq_ragged, ?_, zeros_eq_empty_iff, ?_⟩
  · rw [hadmits]
    constructor
    · intro hright
      by_contra hwrong
      obtain ⟨hover, hsize⟩ := not_or.1 hwrong
      have hpos : 0 < rows * cols := Nat.lt_of_lt_of_le (by decide) (Nat.le_of_not_lt hover)
      have hcount := (hright.1 ⟨Nat.pos_of_mul_pos_right hpos, Nat.pos_of_mul_pos_left hpos,
        not_not.1 hsize⟩).2.2
      exact hover (hcount ▸ hvalues)
    · rintro (hfits | hsize)
      · rw [word_of_lt hfits]
      · refine iff_of_false (fun h => hsize h.2.2) fun h => hsize ?_
        rw [← h.2.2, word_of_lt hvalues]
  · rintro a (ha | ha)
    · exact holds_all_iff_of_ofFlat ha
    · exact holds_all_iff_of_ofFlat (zeros_eq_ok_iff.1 ha)

/-- Six entries in three rows, and none at all for `2 ^ 32` rows of as many. -/
theorem constructors_count_in_word_wrapped :
    (∃ a, ofFlat 3 2 #[1, 2, 3, 4, 5, (6 : Float)] = .ok a) ∧
    (∃ row found, ofFlat 3 2 #[(1 : Float)] = .error (.raggedRows row 2 found) ∧
      row * 2 + found = 1 ∧ found < 2) ∧
    (∃ a, ofFlat 4294967296 4294967296 (#[] : Array Float) = .ok a) ∧
    ∀ a : DenseMatrix Float, zeros 4294967296 4294967296 = .ok a →
      a.values.size ≠ 4294967296 * 4294967296 := by
  obtain ⟨hfull, -⟩ := constructors_count_in_word 3 2 #[1, 2, 3, 4, 5, (6 : Float)] (by decide)
  obtain ⟨-, -, hragged, -⟩ := constructors_count_in_word 3 2 #[(1 : Float)] (by decide)
  obtain ⟨hnone, -, -, -, -, hzeros⟩ :=
    constructors_count_in_word 4294967296 4294967296 (#[] : Array Float) (by decide)
  refine ⟨hfull.2 (by decide), hragged (by decide) (by decide) (by decide), hnone.2 (by decide),
    fun a ha hsize => ?_⟩
  exact absurd ((hzeros a (.inr ha)).2.1.1 hsize) (by decide)

/-- The product of the two counts is `2 ^ 64`, which is zero in a word, so a shape with that many
places is admitted without any entry. -/
theorem ofFlat_admits_nothing :
    ¬ ((∃ a, ofFlat 4294967296 4294967296 (#[] : Array Float) = .ok a) ↔
      0 < 4294967296 ∧ 0 < 4294967296 ∧
        (#[] : Array Float).size = 4294967296 * 4294967296) ∧
    (zeros 4294967296 4294967296 : Except CalcFault (DenseMatrix Float)) =
      .ok ⟨⟨4294967296, 4294967296⟩, #[]⟩ ∧
    (⟨⟨4294967296, 4294967296⟩, #[]⟩ : DenseMatrix Float).get? 0 0 = none := by
  refine ⟨fun h => ?_, rfl, rfl⟩
  exact absurd (h.1 ⟨_, rfl⟩).2.2 (by decide)

end DenseMatrix

end MatrixCalc
