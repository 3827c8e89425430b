import MatrixCalc.Proofs.Storage.Sizes
import MatrixCalc.Proofs.Text.Rows

/-!
# Rows, places and one array

The entries of a matrix stand in one array. `HasRows` says which rows this array stands for, and the
three ways to look at a matrix are all read off from it: the array cut into rows gives these rows
(`HasRows.rowList_eq`), a single row is the one of that number (`HasRows.row?_eq`), and an entry is
the one of that number in its row (`HasRows.get?_eq`), so no column reaches into the next row.

The constructor from rows gives a matrix with these rows if all are as long as the first, and
otherwise names the first one that is not (`nested_rows_are_stored`).

§1 rows of one length · §2 the rows of a matrix · §3 matrices from rows
-/

namespace MatrixCalc

/-! ## §1 Rows of one length -/

section Rows

variable {β : Type} {rows : List (List β)} {n : Nat}

/-- Rows of one length, one after the other: the number at a place of a row. -/
theorem getElem?_flatten_of_length (hlength : ∀ row ∈ rows, row.length = n) (i : Nat) {j : Nat}
    (hj : j < n) : rows.flatten[i * n + j]? = rows[i]?.bind fun row => row[j]? := by
  induction rows generalizing i with
  | nil => rfl
  | cons row rows ih =>
    obtain ⟨hrow, hrows⟩ := List.forall_mem_cons.1 hlength
    rw [List.flatten_cons]
    cases i with
    | zero =>
      rw [Nat.zero_mul, Nat.zero_add, List.getElem?_append_left (hrow ▸ hj)]
      rfl
    | succ i =>
      have hplace : (i + 1) * n + j - row.length = i * n + j := by
        rw [hrow, Nat.succ_mul]
        omega
      rw [List.getElem?_append_right (by rw [hrow, Nat.succ_mul]; omega), hplace, ih hrows i,
        List.getElem?_cons_succ]

theorem map_length_of_length (hlength : ∀ row ∈ rows, row.length = n) :
    rows.map List.length = List.replicate rows.length n :=
  List.eq_replicate_iff.2 ⟨List.length_map _, List.forall_mem_map.2 hlength⟩

theorem length_flatten_of_length (hlength : ∀ row ∈ rows, row.length = n) :
    rows.flatten.length = rows.length * n := by
  rw [List.length_flatten, map_length_of_length hlength, List.sum_replicate_nat]

end Rows

namespace DenseMatrix

variable {α : Type}

/-! ## §2 The rows of a matrix -/

/-- The array of a matrix stands for some rows: as many as the shape says, of the length it says,
and with all entries in their order. -/
structure HasRows (a : DenseMatrix α) (rows : List (List α)) : Prop where
  count : a.rows = rows.length
  length : ∀ row ∈ rows, row.length = a.cols
  values : a.values.toList = rows.flatten

variable {a : DenseMatrix α} {rows rows' : List (List α)}

theorem WellFormed.hasRows (h : a.WellFormed) : a.HasRows a.rowList :=
  ⟨(length_rowList h).symm, fun _ => length_of_mem_rowList h, (flatten_rowList h).symm⟩

theorem HasRows.size_values (h : a.HasRows rows) : a.values.size = a.rows * a.cols := by
  rw [← Array.length_toList, h.values, length_flatten_of_length h.length, h.count]

theorem HasRows.unique (h : a.HasRows rows) (h' : a.HasRows rows') : rows = rows' := by
  refine List.eq_iff_flatten_eq.2 ⟨h.values.symm.trans h'.values, ?_⟩
  rw [map_length_of_length h.length, map_length_of_length h'.length, ← h.count, ← h'.count]

/-- The array, cut into pieces as long as a row, gives the rows. -/
theorem HasRows.rowList_eq (h : a.HasRows rows) (hwell : a.WellFormed) : a.rowList = rows :=
  hwell.hasRows.unique h

/-- An entry is found in its row, and there is none beyond the rows or beyond the end of a row. -/
theorem HasRows.get?_eq (h : a.HasRows rows) (hfits : a.values.size < wordCount) (r c : Nat) :
    a.get? r c = rows[r]?.bind fun row => row[c]? := by
  rw [get?]
  split
  next hout =>
    by_cases hr : r < rows.length
    · have hrow : rows[r].length = a.cols := h.length _ (List.getElem_mem hr)
      have hcols : a.cols ≤ c := hout.resolve_left (by rw [h.count]; omega)
      rw [List.getElem?_eq_getElem hr, Option.bind_some, List.getElem?_eq_none (hrow ▸ hcols)]
    · rw [List.getElem?_eq_none (Nat.le_of_not_lt hr), Option.bind_none]
  next hin =>
    have hr : r < a.rows := by omega
    have hc : c < a.cols := by omega
    have hplace : r * a.cols + c < a.values.size := by
      rw [h.size_values]
      exact Grid.position_lt ⟨r, hr⟩ ⟨c, hc⟩
    rw [word_of_lt (hplace.trans hfits), ← Array.getElem?_toList, h.values,
      getElem?_flatten_of_length h.length r hc]

/-- A row is found by its number, and there is none beyond the last. -/
theorem HasRows.row?_eq (h : a.HasRows rows) (hwell : a.WellFormed)
    (hfits : a.values.size < wordCount) (r : Nat) : a.row? r = rows[r]? := by
  have hlength := length_rowList hwell
  rw [rowList, List.length_map, List.length_range] at hlength
  rw [← h.rowList_eq hwell, rowList, hlength, List.getElem?_map, row?]
  by_cases hr : r < a.rows
  · have hstop : r * a.cols + a.cols ≤ a.values.size := by
      rw [h.size_values, ← Nat.succ_mul]
      exact Nat.mul_le_mul_right _ hr
    have hstart : word (r * a.cols) = r * a.cols := word_of_lt (by omega)
    have hend : word (r * a.cols + a.cols) = r * a.cols + a.cols := word_of_lt (by omega)
    rw [hstart, hend, if_pos ⟨hr, Nat.le_add_right _ _, hstop⟩, List.getElem?_range hr,
      Option.map_some]
  · rw [if_neg fun hin => hr hin.1, List.getElem?_eq_none (by simpa using hr), Option.map_none]

/-! ## §3 Matrices from rows -/

/-- Row `i` is the first that is not of length `n`, and it is of length `m`. -/
structure FirstUneven (rows : List (List α)) (n i m : Nat) : Prop where
  row : rows[i]?.map List.length = some m
  ne : m ≠ n
  before : ∀ j < i, rows[j]?.map List.length = some n

theorem FirstUneven.exists_mem {n i m : Nat} (h : FirstUneven rows n i m) :
    ∃ row ∈ rows, row.length ≠ n := by
  obtain ⟨row, hrow, rfl⟩ := Option.map_eq_some_iff.1 h.row
  exact ⟨row, List.mem_of_getElem? hrow, h.ne⟩

/-- There is only one first row of another length. -/
theorem FirstUneven.unique {n i j m k : Nat} (h : FirstUneven rows n i m)
    (h' : FirstUneven rows n j k) : i = j ∧ m = k := by
  rcases Nat.lt_trichotomy i j with hlt | rfl | hlt
  · exact absurd (Option.some_inj.1 (h.row.symm.trans (h'.before i hlt))) h.ne
  · exact ⟨rfl, Option.some_inj.1 (h.row.symm.trans h'.row)⟩
  · exact absurd (Option.some_inj.1 (h'.row.symm.trans (h.before j hlt))) h'.ne

/-- The search through the numbered rows finds the first one of another length. -/
theorem firstUneven_of_find? {n i : Nat} {row : List α}
    (h : (rows.zipIdx.find? fun r => r.1.length != n) = some (row, i)) :
    FirstUneven rows n i row.length := by
  obtain ⟨hne, k, hk, hfound, hbefore⟩ := List.find?_eq_some_iff_getElem.1 h
  rw [List.getElem_zipIdx, Nat.zero_add] at hfound
  obtain ⟨rfl, rfl⟩ := Prod.mk.inj hfound
  rw [List.length_zipIdx] at hk
  refine ⟨by rw [List.getElem?_eq_getElem hk, Option.map_some], by simpa using hne,
    fun j hj => ?_⟩
  have heven := hbefore j hj
  rw [List.getElem_zipIdx] at heven
  rw [List.getElem?_eq_getElem (hj.trans hk), Option.map_some]
  simpa using heven

theorem head_cases (rows : List (List α)) :
    (rows = [] ∨ rows.head? = some []) ∨
      ∃ n, 0 < n ∧ rows.head?.map List.length = some n := by
  rcases rows with _ | ⟨first, rest⟩
  · exact .inl (.inl rfl)
  rcases first with _ | ⟨x, xs⟩
  · exact .inl (.inr rfl)
  · exact .inr ⟨(x :: xs).length, Nat.succ_pos _, rfl⟩

theorem ofRows_of_empty (h : rows = [] ∨ rows.head? = some []) :
    ofRows rows = .error .emptyMatrix := by
  rcases h with rfl | hhead
  · rfl
  · rw [ofRows, hhead]
    rfl

/-- After a first row with entries the constructor from rows either finds a row of another length or
joins the rows. -/
theorem ofRows_of_head {n : Nat} (hpos : 0 < n) (hfirst : rows.head?.map List.length = some n) :
    (∃ i m, FirstUneven rows n i m ∧ ofRows rows = .error (.raggedRows i n m)) ∨
      (∀ row ∈ rows, row.length = n) ∧
        ofRows rows = .ok ⟨⟨rows.length, n⟩, rows.flatten.toArray⟩ := by
  have hcols : (rows.head?.map List.length).getD 0 = n := by
    rw [hfirst]
    rfl
  unfold ofRows
  simp only [hcols, if_neg (Nat.pos_iff_ne_zero.1 hpos)]
  cases hfind : rows.zipIdx.find? fun r => r.1.length != n with
  | some found =>
    obtain ⟨row, i⟩ := found
    exact .inl ⟨i, row.length, firstUneven_of_find? hfind, rfl⟩
  | none =>
    refine .inr ⟨fun row hrow => ?_, rfl⟩
    obtain ⟨i, hi⟩ := List.mem_iff_getElem?.1 hrow
    have heven := List.find?_eq_none.1 hfind (row, i) (List.mem_zipIdx_iff_getElem?.2 hi)
    simpa using heven

theorem ofRows_eq_ok_iff :
    ofRows rows = .ok a ↔ ∃ n, 0 < n ∧ rows.head?.map List.length = some n ∧
      (∀ row ∈ rows, row.length = n) ∧ a = ⟨⟨rows.length, n⟩, rows.flatten.toArray⟩ := by
  constructor
  · intro h
    rcases head_cases rows with hempty | ⟨n, hpos, hfirst⟩
    · cases (ofRows_of_empty hempty).symm.trans h
    rcases ofRows_of_head hpos hfirst with ⟨i, m, -, hragged⟩ | ⟨hall, hok⟩
    · cases hragged.symm.trans h
    · cases hok.symm.trans h
      exact ⟨n, hpos, hfirst, hall, rfl⟩
  · rintro ⟨n, hpos, hfirst, hall, rfl⟩
    rcases ofRows_of_head hpos hfirst with ⟨i, m, huneven, -⟩ | ⟨-, hok⟩
    · obtain ⟨row, hrow, hne⟩ := huneven.exists_mem
      exact absurd (hall row hrow) hne
    · exact hok

/-- The fault of rows that make no matrix: there is no first row with an entry, or the first row of
another length is named, with the length that it should have and the one that it has. -/
theorem ofRows_eq_error_iff {f : CalcFault} :
    ofRows rows = .error f ↔
      f = .emptyMatrix ∧ (rows = [] ∨ rows.head? = some []) ∨
      ∃ n i m, f = .raggedRows i n m ∧ 0 < n ∧ rows.head?.map List.length = some n ∧
        FirstUneven rows n i m := by
  constructor
  · intro h
    rcases head_cases rows with hempty | ⟨n, hpos, hfirst⟩
    · cases (ofRows_of_empty hempty).symm.trans h
      exact .inl ⟨rfl, hempty⟩
    rcases ofRows_of_head hpos hfirst with ⟨i, m, huneven, hragged⟩ | ⟨-, hok⟩
    · cases hragged.symm.trans h
      exact .inr ⟨n, i, m, rfl, hpos, hfirst, huneven⟩
    · cases hok.symm.trans h
  · rintro (⟨rfl, hempty⟩ | ⟨n, i, m, rfl, hpos, hfirst, huneven⟩)
    · exact ofRows_of_empty hempty
    rcases ofRows_of_head hpos hfirst with ⟨i', m', huneven', hragged⟩ | ⟨hall, -⟩
    · obtain ⟨rfl, rfl⟩ := huneven.unique huneven'
      exact hragged
    · obtain ⟨row, hrow, hne⟩ := huneven.exists_mem
      exact absurd (hall row hrow) hne

/-- A matrix from rows has these rows and is well formed. -/
theorem hasRows_of_ofRows (h : ofRows rows = .ok a) : a.HasRows rows ∧ a.WellFormed := by
  obtain ⟨n, hpos, hfirst, hall, rfl⟩ := ofRows_eq_ok_iff.1 h
  have hrows : (⟨⟨rows.length, n⟩, rows.flatten.toArray⟩ : DenseMatrix α).HasRows rows :=
    ⟨rfl, hall, rfl⟩
  refine ⟨hrows, List.length_pos_iff.2 ?_, hpos, hrows.size_values⟩
  rintro rfl
  cases hfirst

/-- From the entries of its rows, one after the other, comes the same matrix. -/
theorem HasRows.ofFlat_eq (h : a.HasRows rows) (hwell : a.WellFormed)
    (hfits : a.values.size < wordCount) :
    ofFlat rows.length a.cols rows.flatten.toArray = .ok a := by
  rw [← h.count, ← h.values, Array.toArray_toList]
  refine ofFlat_eq_ok_iff.2 ⟨hwell.rows_pos, hwell.cols_pos, ?_, rfl⟩
  rw [← hwell.size_values, word_of_lt hfits]

/-- There is no entry exactly if one of the two numbers is out of range. -/
theorem HasRows.get?_eq_none_iff (h : a.HasRows rows) (hfits : a.values.size < wordCount)
    (r c : Nat) : a.get? r c = none ↔ a.rows ≤ r ∨ a.cols ≤ c := by
  rw [h.get?_eq hfits, h.count]
  by_cases hr : r < rows.length
  · have hrow : rows[r].length = a.cols := h.length _ (List.getElem_mem hr)
    rw [List.getElem?_eq_getElem hr, Option.bind_some, List.getElem?_eq_none_iff, hrow,
      or_iff_right (Nat.not_le.2 hr)]
  · have hr : rows.length ≤ r := Nat.le_of_not_lt hr
    rw [List.getElem?_eq_none hr]
    exact iff_of_true rfl (.inl hr)

/-- Rows make a matrix exactly if there is a first one, it is not empty, and all are as long. If
there is none or it is empty that is the fault, and otherwise the fault names the first row of
another length. A matrix from rows gives them back when its array is cut into rows. As long as its
entries can be counted in a word, a single row and a single entry are those of the given numbers,
and there is none exactly if a number is out of range; and the same matrix comes from the entries of
the rows one after the other. -/
theorem nested_rows_are_stored (rows : List (List α)) :
    ((∃ a, ofRows rows = .ok a) ↔
      ∃ n, 0 < n ∧ rows.head?.map List.length = some n ∧ ∀ row ∈ rows, row.length = n) ∧
    (∀ f, ofRows rows = .error f ↔
      f = .emptyMatrix ∧ (rows = [] ∨ rows.head? = some []) ∨
      ∃ n i m, f = .raggedRows i n m ∧ 0 < n ∧ rows.head?.map List.length = some n ∧
        FirstUneven rows n i m) ∧
    ∀ a, ofRows rows = .ok a →
      a.rows = rows.length ∧ (∀ row ∈ rows, row.length = a.cols) ∧ a.rowList = rows ∧
      (a.values.size < wordCount →
        (∀ r, a.row? r = rows[r]?) ∧
        (∀ r c, a.get? r c = rows[r]?.bind fun row => row[c]?) ∧
        (∀ r, a.row? r = none ↔ a.rows ≤ r) ∧
        (∀ r c, a.get? r c = none ↔ a.rows ≤ r ∨ a.cols ≤ c) ∧
        ofFlat rows.length a.cols rows.flatten.toArray = .ok a) := by
  refine ⟨?_, fun _ => ofRows_eq_error_iff, fun a ha => ?_⟩
  · constructor
    · rintro ⟨a, ha⟩
      obtain ⟨n, hpos, hfirst, hall, -⟩ := ofRows_eq_ok_iff.1 ha
      exact ⟨n, hpos, hfirst, hall⟩
    · rintro ⟨n, hpos, hfirst, hall⟩
      exact ⟨_, ofRows_eq_ok_iff.2 ⟨n, hpos, hfirst, hall, rfl⟩⟩
  obtain ⟨h, hwell⟩ := hasRows_of_ofRows ha
  refine ⟨h.count, h.length, h.rowList_eq hwell, fun hfits => ?_⟩
  have hrow := h.row?_eq hwell hfits
  refine ⟨hrow, h.get?_eq hfits, fun r => ?_, h.get?_eq_none_iff hfits, h.ofFlat_eq hwell hfits⟩
  rw [hrow, List.getElem?_eq_none_iff, h.count]

/-- Three rows of two, whose places are found by row and column, and a row that is too long after
one that is as long as the first. -/
theorem nested_rows_are_stored_pairs :
    let rows : List (List Nat) := [[1, 2], [3, 4], [5, 6]]
    let a : DenseMatrix Nat := ⟨⟨3, 2⟩, #[1, 2, 3, 4, 5, 6]⟩
    ofRows rows = .ok a ∧ a.rowList = rows ∧ a.row? 1 = some [3, 4] ∧ a.get? 1 1 = some 4 ∧
      a.get? 0 2 = none ∧ ofFlat 3 2 rows.flatten.toArray = .ok a ∧
      ofRows [[1, 2], [3, 4], [5, 6, 7], [8]] = .error (.raggedRows 2 2 3) := by
  intro rows a
  obtain ⟨hok, -, hviews⟩ := nested_rows_are_stored rows
  obtain ⟨b, hb⟩ := hok.2 ⟨2, by decide, rfl, by decide⟩
  obtain rfl : a = b := Except.ok.inj hb
  obtain ⟨-, -, hrows, hindexed⟩ := hviews a hb
  obtain ⟨hrow, hget, -, hnone, hflat⟩ := hindexed (by decide)
  obtain ⟨-, herror, -⟩ := nested_rows_are_stored [[1, 2], [3, 4], [5, 6, 7], [8]]
  refine ⟨hb, hrows, hrow 1, hget 1 1, (hnone 0 2).2 (.inr (by decide)), hflat, ?_⟩
  exact (herror _).2 (.inr ⟨2, 2, 3, rfl, by decide, rfl, rfl, by decide, by decide⟩)

end DenseMatrix

end MatrixCalc
