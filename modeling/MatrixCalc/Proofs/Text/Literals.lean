import MatrixCalc.Reading
import Mathlib.Data.List.TakeWhile

/-!
# Literals

What a literal is and which matrix it is. Between its brackets the row ends separate rows and the
spaces separate the numerals of a row; a numeral is digits with at most one point, after a sign or
without. All rows have the same number of numerals, at least one.
-/

namespace MatrixCalc

universe u

/-! ## §1 Numerals -/

namespace Numeral

/-- Digits with at most one point among them. -/
def isDigits (cs : List Char) : Bool :=
  cs.all Token.isNumeric && cs.any Char.isDigit && decide (cs.count '.' ≤ 1)

/-- Digits with at most one point, after a sign or without. -/
def isPlain (s : String) : Bool :=
  match s.toList with
  | '-' :: cs => isDigits cs
  | cs => isDigits cs

theorem isDigit_or_point {c : Char} (h : Token.isNumeric c = true) :
    c.isDigit = true ∨ c = '.' := by
  simp only [Token.isNumeric, Bool.or_eq_true, beq_iff_eq] at h
  rcases h with h | h
  · left
    simpa [Char.isDigit, Char.le_def] using h
  · exact .inr h

/-- After its first digits a number ends, or there is a point with only digits after it. -/
theorem dropWhile_of_isDigits {cs : List Char} (h : isDigits cs = true) :
    cs.dropWhile Char.isDigit = [] ∨
      ∃ ds, cs.dropWhile Char.isDigit = '.' :: ds ∧ ∀ d ∈ ds, d.isDigit = true := by
  simp only [isDigits, Bool.and_eq_true, decide_eq_true_eq] at h
  obtain ⟨⟨hall, -⟩, hpoint⟩ := h
  have hsplit : cs.takeWhile Char.isDigit ++ cs.dropWhile Char.isDigit = cs :=
    List.takeWhile_append_dropWhile
  cases hd : cs.dropWhile Char.isDigit with
  | nil => exact .inl rfl
  | cons c ds =>
    rw [hd] at hsplit
    have hchar : ∀ d ∈ c :: ds, d.isDigit = true ∨ d = '.' := by
      intro d hmem
      refine isDigit_or_point (List.all_eq_true.1 hall d ?_)
      rw [← hsplit]
      exact List.mem_append_right _ hmem
    have hnot : c.isDigit = false := by
      have h := List.head?_dropWhile_not Char.isDigit cs
      rw [hd] at h
      simpa using h
    obtain rfl : c = '.' := by
      rcases hchar c (by simp) with h | h
      · rw [hnot] at h
        cases h
      · exact h
    refine .inr ⟨ds, rfl, fun d hmem => ?_⟩
    rcases hchar d (List.mem_cons_of_mem _ hmem) with h | rfl
    · exact h
    · -- a second point would be one too many
      rw [← hsplit, List.count_append, List.count_cons_self] at hpoint
      have := List.count_pos_iff.2 hmem
      omega

theorem isSome_decimal? {cs : List Char} (h : isDigits cs = true) :
    (decimal? cs).isSome = true := by
  have hsplit : cs.takeWhile Char.isDigit ++ cs.dropWhile Char.isDigit = cs :=
    List.takeWhile_append_dropWhile
  have hdigit : cs.any Char.isDigit = true := by
    simp only [isDigits, Bool.and_eq_true] at h
    exact h.1.2
  unfold decimal?
  rcases dropWhile_of_isDigits h with hnil | ⟨ds, hcons, hds⟩
  · have hne : (cs.takeWhile Char.isDigit).isEmpty = false := by
      rw [List.isEmpty_eq_false_iff]
      intro htake
      rw [← hsplit, htake, hnil] at hdigit
      cases hdigit
    simp only [hnil, fraction, hne, Bool.false_and]
    rfl
  · have htake : ds.takeWhile Char.isDigit = ds := List.takeWhile_eq_self_iff.2 hds
    have hdrop : ds.dropWhile Char.isDigit = [] := List.dropWhile_eq_nil_iff.2 hds
    have hne : ((cs.takeWhile Char.isDigit).isEmpty && ds.isEmpty) = false := by
      rw [Bool.eq_false_iff]
      intro hempty
      obtain ⟨hnone, hds⟩ := Bool.and_eq_true_iff.1 hempty
      rw [← hsplit, List.isEmpty_iff.1 hnone, hcons, List.isEmpty_iff.1 hds] at hdigit
      cases hdigit
    simp only [hcons, fraction, htake, hdrop, hne]
    rfl

theorem isSome_magnitude? {cs : List Char} (h : isDigits cs = true) :
    (magnitude? cs).isSome = true := by
  simp only [magnitude?]
  split
  · rfl
  split
  · rfl
  · rw [Option.isSome_map]
    exact isSome_decimal? h

/-- A plain numeral has a value. -/
theorem isSome_read? {s : String} (h : isPlain s = true) : (read? s).isSome = true := by
  unfold isPlain at h
  unfold read?
  split at h
  · next cs hs =>
    simp only [hs, Option.isSome_map]
    exact isSome_magnitude? h
  · next cs hminus =>
    split
    · next ds hs => exact absurd hs (hminus ds)
    · next ds hs =>
      rw [hs] at h
      cases h
    · exact isSome_magnitude? h

end Numeral

/-! ## §2 Numerals that can be read -/

namespace Token

/-- The characters of numerals. -/
def isNumeral (c : Char) : Bool := isNumeric c || c == '-'

theorem isSpacing_of_isNumeral {c : Char} (h : isNumeral c = true) : isSpacing c = false := by
  refine Bool.eq_false_iff.2 fun hspacing => ?_
  simp only [isSpacing, Bool.or_eq_true, beq_iff_eq] at hspacing
  rcases hspacing with (((rfl | rfl) | rfl) | rfl) | rfl <;> exact absurd h (by decide)

theorem isNumeral_of_isSpacing {c : Char} (h : isSpacing c = true) : isNumeral c = false := by
  refine Bool.eq_false_iff.2 fun hnumeral => ?_
  rw [isSpacing_of_isNumeral hnumeral] at h
  cases h

theorem toLower_of_isNumeral {c : Char} (h : isNumeral c = true) : c.toLower = c := by
  have hhigh : c.val ≤ '9'.val := by
    simp only [isNumeral, isNumeric, Bool.or_eq_true, Bool.and_eq_true, decide_eq_true_eq,
      beq_iff_eq] at h
    rcases h with (⟨-, hc⟩ | rfl) | rfl
    · exact hc
    · decide
    · decide
  refine dif_neg ?_
  rintro ⟨hlow, -⟩
  exact absurd (UInt32.le_trans hlow hhigh) (by decide)

theorem isNumeric_of_isDigit {c : Char} (h : c.isDigit = true) : isNumeric c = true := by
  simp only [isNumeric, Bool.or_eq_true]
  left
  simpa [Char.isDigit, Char.le_def] using h

end Token

namespace Numeral

/-- There is no exponent without its letter. -/
theorem eq_nil_of_exponent? {cs : List Char} (hcs : ∀ c ∈ cs, Token.isNumeral c = true)
    (h : (exponent? cs).isSome = true) : cs = [] := by
  cases cs with
  | nil => rfl
  | cons c cs =>
    have hc := hcs c List.mem_cons_self
    have hne : ¬ (c = 'e' ∨ c = 'E') := by
      rintro (rfl | rfl)
      · exact absurd hc (by decide)
      · exact absurd hc (by decide)
    have hnone : exponent? (c :: cs) = none := by
      unfold exponent?
      exact if_neg hne
    rw [hnone] at h
    cases h

theorem count_point_of_isDigit {cs : List Char} (h : ∀ c ∈ cs, c.isDigit = true) :
    cs.count '.' = 0 :=
  List.count_eq_zero.2 fun hm => absurd (h _ hm) (by decide)

theorem isDigits_append_point {whole part : List Char} (hwhole : ∀ c ∈ whole, c.isDigit = true)
    (hpart : ∀ c ∈ part, c.isDigit = true) (hne : whole ≠ [] ∨ part ≠ []) :
    isDigits (whole ++ '.' :: part) = true := by
  simp only [isDigits, Bool.and_eq_true, decide_eq_true_eq, List.all_eq_true, List.any_eq_true]
  refine ⟨⟨?_, ?_⟩, ?_⟩
  · intro c hc
    rcases List.mem_append.1 hc with hc | hc
    · exact Token.isNumeric_of_isDigit (hwhole c hc)
    · rcases List.mem_cons.1 hc with rfl | hc
      · rfl
      · exact Token.isNumeric_of_isDigit (hpart c hc)
  · rcases hne with hne | hne
    · obtain ⟨c, hc⟩ := List.exists_mem_of_ne_nil _ hne
      exact ⟨c, List.mem_append_left _ hc, hwhole c hc⟩
    · obtain ⟨c, hc⟩ := List.exists_mem_of_ne_nil _ hne
      exact ⟨c, List.mem_append_right _ (List.mem_cons_of_mem _ hc), hpart c hc⟩
  · rw [List.count_append, List.count_cons_self, count_point_of_isDigit hwhole,
      count_point_of_isDigit hpart]

theorem isDigits_of_isDigit {cs : List Char} (hcs : ∀ c ∈ cs, c.isDigit = true) (hne : cs ≠ []) :
    isDigits cs = true := by
  have hcount := count_point_of_isDigit hcs
  obtain ⟨c, hc⟩ := List.exists_mem_of_ne_nil _ hne
  simp only [isDigits, Bool.and_eq_true, decide_eq_true_eq, List.all_eq_true, List.any_eq_true]
  exact ⟨⟨fun d hd => Token.isNumeric_of_isDigit (hcs d hd), c, hc, hcs c hc⟩, by omega⟩

theorem isDigits_of_decimal? {cs : List Char} (hcs : ∀ c ∈ cs, Token.isNumeral c = true)
    (h : (decimal? cs).isSome = true) : isDigits cs = true := by
  have hsplit : cs.takeWhile Char.isDigit ++ cs.dropWhile Char.isDigit = cs :=
    List.takeWhile_append_dropWhile
  have hwhole : ∀ c ∈ cs.takeWhile Char.isDigit, c.isDigit = true :=
    fun c hc => List.all_eq_true.1 List.all_takeWhile c hc
  have hrest : ∀ c ∈ cs.dropWhile Char.isDigit, Token.isNumeral c = true :=
    fun c hc => hcs c ((List.dropWhile_sublist _).subset hc)
  unfold decimal? at h
  cases hd : cs.dropWhile Char.isDigit with
  | nil =>
    rw [hd] at h hsplit
    rw [← hsplit, List.append_nil]
    refine isDigits_of_isDigit hwhole fun hnil => ?_
    simp [hnil, fraction] at h
  | cons c ds =>
    rw [hd] at h hsplit hrest
    by_cases hc : c = '.'
    · subst hc
      -- after the point there are digits, and no exponent can follow them
      have hds : ds.takeWhile Char.isDigit ++ ds.dropWhile Char.isDigit = ds :=
        List.takeWhile_append_dropWhile
      simp only [fraction] at h
      by_cases hempty : ((cs.takeWhile Char.isDigit).isEmpty &&
          (ds.takeWhile Char.isDigit).isEmpty) = true
      · rw [if_pos hempty] at h
        cases h
      · rw [if_neg hempty, Option.isSome_map] at h
        have hnil : ds.dropWhile Char.isDigit = [] :=
          eq_nil_of_exponent? (fun d hd => hrest d
            (List.mem_cons_of_mem _ ((List.dropWhile_sublist _).subset hd))) h
        rw [hnil, List.append_nil] at hds
        rw [← hsplit, ← hds]
        refine isDigits_append_point hwhole
          (fun d hd => List.all_eq_true.1 List.all_takeWhile d hd) ?_
        by_cases hw : cs.takeWhile Char.isDigit = []
        · refine .inr fun hp => hempty ?_
          rw [hw, hp]
          rfl
        · exact .inl hw
    · have hfraction : fraction (c :: ds) = ([], c :: ds) := by
        unfold fraction
        split
        · next heq => exact absurd (List.cons.inj heq).1 hc
        · rfl
      simp only [hfraction] at h
      split at h
      · cases h
      · rw [Option.isSome_map] at h
        cases eq_nil_of_exponent? hrest h

theorem isDigits_of_magnitude? {cs : List Char} (hcs : ∀ c ∈ cs, Token.isNumeral c = true)
    (h : (magnitude? cs).isSome = true) : isDigits cs = true := by
  have hlower : cs.map Char.toLower = cs := by
    refine (List.map_congr_left fun c hc => ?_).trans (List.map_id cs)
    exact Token.toLower_of_isNumeral (hcs c hc)
  -- no letter stands in a numeral, so it is none of the words
  have hword : ∀ word : String, (∃ c ∈ word.toList, Token.isNumeral c = false) →
      cs ≠ word.toList := by
    rintro word ⟨c, hc, hnot⟩ rfl
    rw [hcs c hc] at hnot
    cases hnot
  have hinf := hword "inf" ⟨'i', by decide, by decide⟩
  have hinfinity := hword "infinity" ⟨'i', by decide, by decide⟩
  have hnan := hword "nan" ⟨'n', by decide, by decide⟩
  simp only [magnitude?, hlower, hinf, hinfinity, hnan, or_self, if_false, Option.isSome_map] at h
  exact isDigits_of_decimal? hcs h

/-- What can be read is a plain numeral if there are only digits, points and minus signs in it. -/
theorem isPlain_of_isSome_read? {s : String} (hs : ∀ c ∈ s.toList, Token.isNumeral c = true)
    (h : (read? s).isSome = true) : isPlain s = true := by
  unfold read? at h
  unfold isPlain
  split at h
  · next cs heq =>
    rw [Option.isSome_map] at h
    rw [heq] at hs ⊢
    exact isDigits_of_magnitude? (fun c hc => hs c (List.mem_cons_of_mem _ hc)) h
  · next cs heq => exact absurd (hs '+' (by rw [heq]; exact List.mem_cons_self)) (by decide)
  · next cs hminus hplus =>
    have hdigits := isDigits_of_magnitude? hs h
    split
    · next ds heq => exact absurd heq (hminus ds)
    · exact hdigits

end Numeral

/-! ## §3 The tokens of a literal -/

namespace Token

/-- The characters of a token, with one space for spacing of any kind. -/
def text : Token → String
  | word text => text
  | digits text => text
  | minus => "-"
  | plus => "+"
  | star => "*"
  | opening => "("
  | closing => ")"
  | literalStart => "["
  | literalEnd => "]"
  | rowEnd => ";"
  | space => " "

/-- Whether a token may stand between the brackets of a literal. -/
def isPiece : Token → Bool
  | digits _ | minus | space | rowEnd => true
  | _ => false

/-- A numeral, unless it is empty. -/
def numeral (s : String) : List String := if s.isEmpty then [] else [s]

/-- The numerals of a row: the texts between its spaces. -/
def numerals (row : List Token) : List String :=
  (row.splitOn .space).flatMap fun ts => numeral (String.join (ts.map text))

/-- The rows between the brackets of a literal, each by its numerals. -/
def rows (body : List Token) : List (List String) := (body.splitOn .rowEnd).map numerals

/-- Well-formed tokens between the brackets of a literal with rows of a given length. -/
structure IsBody (cols : Nat) (body : List Token) : Prop where
  isPiece : ∀ t ∈ body, t.isPiece = true
  cols_pos : 0 < cols
  length_row : ∀ row ∈ rows body, row.length = cols
  isPlain : ∀ s ∈ (rows body).flatten, Numeral.isPlain s = true

/-- The matrix of a literal: the values of its numerals, row after row. -/
def matrix (cols : Nat) (body : List Token) : DenseMatrix Float :=
  ⟨⟨(rows body).length, cols⟩, ((rows body).flatten.filterMap Numeral.read?).toArray⟩

@[simp] theorem numerals_digits (s : String) : numerals [.digits s] = numeral s := by
  simp [numerals, List.splitOn_cons_eq_if_modifyHead, text]

theorem numerals_digits_space (s : String) (row : List Token) :
    numerals (.digits s :: .space :: row) = numeral s ++ numerals row := by
  simp [numerals, List.splitOn_cons_eq_if_modifyHead, text]

theorem numerals_space (row : List Token) : numerals (.space :: row) = numerals row := by
  simp [numerals, List.splitOn_cons_eq_if_modifyHead, numeral]

theorem numerals_digits_cons (s : String) {t : Token} (ht : t ≠ .space) (row : List Token) :
    numerals (.digits s :: t :: row) = numerals (.digits (s ++ t.text) :: row) := by
  obtain ⟨first, rest, h⟩ := List.exists_cons_of_ne_nil (List.splitOn_ne_nil Token.space row)
  simp [numerals, List.splitOn_cons_eq_if_modifyHead, ht, h, text, String.append_assoc]

theorem rows_digits (s : String) : rows [.digits s] = [numeral s] := by
  simp [rows, List.splitOn_cons_eq_if_modifyHead]

theorem rows_digits_rowEnd (s : String) (body : List Token) :
    rows (.digits s :: .rowEnd :: body) = numeral s :: rows body := by
  simp [rows, List.splitOn_cons_eq_if_modifyHead]

theorem rows_digits_space (s : String) (body : List Token) :
    rows (.digits s :: .space :: body) = (rows body).modifyHead (numeral s ++ ·) := by
  obtain ⟨first, rest, h⟩ := List.exists_cons_of_ne_nil (List.splitOn_ne_nil Token.rowEnd body)
  simp [rows, List.splitOn_cons_eq_if_modifyHead, h, numerals_digits_space]

theorem rows_space (body : List Token) : rows (.space :: body) = rows body := by
  obtain ⟨first, rest, h⟩ := List.exists_cons_of_ne_nil (List.splitOn_ne_nil Token.rowEnd body)
  simp [rows, List.splitOn_cons_eq_if_modifyHead, h, numerals_space]

theorem rows_rowEnd (body : List Token) : rows (.rowEnd :: body) = [] :: rows body := by
  simp [rows, List.splitOn_cons_eq_if_modifyHead, numerals, numeral]

theorem rows_ne_nil (body : List Token) : rows body ≠ [] := by
  simp [rows]

theorem rows_digits_empty (body : List Token) : rows (.digits "" :: body) = rows body := by
  obtain ⟨first, rest, h⟩ := List.exists_cons_of_ne_nil (List.splitOn_ne_nil Token.rowEnd body)
  obtain ⟨ts, row, h'⟩ := List.exists_cons_of_ne_nil (List.splitOn_ne_nil Token.space first)
  simp [rows, numerals, List.splitOn_cons_eq_if_modifyHead, h, h', text]

/-- Text goes on until a space or a row end comes. -/
theorem rows_digits_cons (s : String) {t : Token} (hspace : t ≠ .space) (hrow : t ≠ .rowEnd)
    (body : List Token) :
    rows (.digits s :: t :: body) = rows (.digits (s ++ t.text) :: body) := by
  obtain ⟨first, rest, h⟩ := List.exists_cons_of_ne_nil (List.splitOn_ne_nil Token.rowEnd body)
  simp [rows, List.splitOn_cons_eq_if_modifyHead, h, hrow, numerals_digits_cons s hspace]

end Token

/-! ## §4 The matrix of a literal -/

/-- A well-formed matrix is the one with its shape and its entries. -/
theorem DenseMatrix.ofFlat_of_wellFormed {α : Type u} {a : DenseMatrix α} (h : a.WellFormed)
    (hbound : a.rows * a.cols < wordCount) : ofFlat a.rows a.cols a.values = .ok a := by
  have hrows := h.rows_pos
  have hcols := h.cols_pos
  have hnonempty : ¬ (a.rows = 0 ∨ a.cols = 0) := by omega
  rw [ofFlat, if_neg hnonempty, word_of_lt hbound, if_neg (fun hne => hne h.size_values)]

namespace Token

/-- There are hardly more numerals than tokens. -/
theorem length_numerals_le (s : String) (body : List Token) :
    (rows (.digits s :: body)).flatten.length ≤ body.length + 1 := by
  have hone : ∀ s, (numeral s).length ≤ 1 := by
    intro s
    unfold numeral
    split <;> simp
  induction body generalizing s with
  | nil => simpa [rows_digits] using hone s
  | cons t body ih =>
    have hs := hone s
    by_cases hspace : t = .space
    · subst hspace
      have hih := ih ""
      obtain ⟨first, rest, hrows⟩ := List.exists_cons_of_ne_nil (rows_ne_nil body)
      rw [rows_digits_empty, hrows] at hih
      rw [rows_digits_space, hrows]
      simp only [List.modifyHead_cons, List.flatten_cons, List.length_append,
        List.length_cons] at hih ⊢
      omega
    · by_cases hrow : t = .rowEnd
      · subst hrow
        have hih := ih ""
        rw [rows_digits_empty] at hih
        rw [rows_digits_rowEnd, List.flatten_cons, List.length_append, List.length_cons]
        omega
      · rw [rows_digits_cons s hspace hrow]
        exact Nat.le_succ_of_le (ih _)

variable {cols : Nat} {body : List Token}

/-- The literal has a numeral for every place of its matrix. -/
theorem IsBody.length_flatten (h : IsBody cols body) :
    (rows body).flatten.length = (rows body).length * cols := by
  have hlengths : (rows body).map List.length = List.replicate (rows body).length cols := by
    refine List.eq_replicate_iff.2 ⟨List.length_map _, ?_⟩
    intro n hn
    obtain ⟨row, hrow, rfl⟩ := List.mem_map.1 hn
    exact h.length_row row hrow
  rw [List.length_flatten, hlengths, List.sum_replicate_nat]

theorem IsBody.wellFormed (h : IsBody cols body) : (matrix cols body).WellFormed := by
  refine ⟨List.length_pos_iff.2 (rows_ne_nil body), h.cols_pos, ?_⟩
  have hread : ((rows body).flatten.filterMap Numeral.read?).length =
      (rows body).flatten.length := by
    rw [List.length_filterMap_eq_countP, List.countP_eq_length]
    exact fun s hs => Numeral.isSome_read? (h.isPlain s hs)
  exact hread.trans h.length_flatten

theorem IsBody.ofFlat_matrix (h : IsBody cols body)
    (hsize : body.length + 1 < DenseMatrix.wordCount) :
    DenseMatrix.ofFlat (matrix cols body).rows (matrix cols body).cols (matrix cols body).values =
      .ok (matrix cols body) := by
  have hle := length_numerals_le "" body
  rw [rows_digits_empty, h.length_flatten] at hle
  exact DenseMatrix.ofFlat_of_wellFormed h.wellFormed (Nat.lt_of_le_of_lt hle hsize)

end Token

end MatrixCalc
