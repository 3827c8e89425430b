import MatrixCalc.DenseMatrix.Basic
import Mathlib.Data.List.Basic

/-!
# The rows of a matrix

The entries of a well-formed matrix, cut into pieces of the length of a row, are its rows: as many
as the shape says, of the length it says, and with all entries in their order.
-/

namespace MatrixCalc

namespace DenseMatrix

universe u v

variable {α : Type u} {β : Type v} {a : DenseMatrix α}

theorem length_rowList (h : a.WellFormed) : a.rowList.length = a.rows := by
  have hcols := h.cols_pos
  have hup : a.rows * a.cols + a.cols - 1 = a.cols - 1 + a.rows * a.cols := by omega
  rw [rowList, List.length_map, List.length_range, h.size_values, hup,
    Nat.add_mul_div_right _ _ hcols, Nat.div_eq_of_lt (by omega), Nat.zero_add]

theorem rowList_ne_nil (h : a.WellFormed) : a.rowList ≠ [] := by
  have hlength := length_rowList h
  have hrows := h.rows_pos
  rintro hnil
  rw [hnil, List.length_nil] at hlength
  omega

theorem length_of_mem_rowList (h : a.WellFormed) {row : List α} (hrow : row ∈ a.rowList) :
    row.length = a.cols := by
  obtain ⟨i, hi, rfl⟩ := List.mem_map.1 hrow
  have hcount : i < a.rows := by
    rw [← length_rowList h, rowList, List.length_map]
    simpa using hi
  have hstop : i * a.cols + a.cols ≤ a.values.size := by
    rw [h.size_values, ← Nat.succ_mul]
    exact Nat.mul_le_mul_right _ hcount
  rw [Array.length_toList, Array.size_extract]
  omega

theorem flatten_rows_range (xs : List α) (cols n : Nat) :
    ((List.range n).map fun i => xs.extract (i * cols) (i * cols + cols)).flatten =
      xs.take (n * cols) := by
  induction n with
  | zero => simp
  | succ n ih =>
    rw [List.range_succ, List.map_append, List.flatten_append, ih, List.map_singleton,
      List.flatten_singleton, List.extract_eq_take_drop, Nat.add_sub_cancel_left, Nat.succ_mul,
      List.take_add]

theorem flatten_rowList (h : a.WellFormed) : a.rowList.flatten = a.values.toList := by
  have hlength := length_rowList h
  rw [rowList, List.length_map, List.length_range] at hlength
  have hrows : a.rowList = (List.range a.rows).map fun i =>
      a.values.toList.extract (i * a.cols) (i * a.cols + a.cols) := by
    rw [rowList, hlength]
    simp only [Array.toList_extract]
  rw [hrows, flatten_rows_range, ← h.size_values]
  exact List.take_length

/-- Matrices of the same shape with the same images of their entries have the same images of their
rows. -/
theorem map_rowList_congr {b : DenseMatrix α} {f : α → β} (hshape : a.toShape = b.toShape)
    (hvalues : a.values.map f = b.values.map f) :
    a.rowList.map (List.map f) = b.rowList.map (List.map f) := by
  have hsize : a.values.size = b.values.size := by simpa using congrArg Array.size hvalues
  have hmap (m : DenseMatrix α) : m.rowList.map (List.map f) =
      (List.range ((m.values.size + m.cols - 1) / m.cols)).map fun i =>
        ((m.values.map f).extract (i * m.cols) (i * m.cols + m.cols)).toList := by
    simp [rowList, ← Array.toList_map]
  rw [hmap, hmap, hvalues, hsize, hshape]

end DenseMatrix

end MatrixCalc
