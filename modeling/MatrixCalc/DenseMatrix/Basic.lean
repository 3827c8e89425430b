import MatrixCalc.Decimal.Layout
import MatrixCalc.Fault
import MatrixCalc.Grid.Basic

/-!
# Matrices

A matrix is a shape and its entries, row after row. Row and column counts are 64-bit words and so is
the position of an entry: products and sums of positions are taken modulo `2 ^ 64`. A matrix is well
formed if its shape is not empty and it has exactly as many entries as the shape says; the
constructors give well-formed matrices for all shapes with fewer than `2 ^ 64` entries.

`view` reads the entries as a grid of a given size, `ofGrid` goes back.

A matrix is written in plain text, with one line for each row, or as a literal of the input syntax
on one line. In both the entries of a row are separated by one space.
-/

namespace MatrixCalc

universe u

inductive Style where
  | plain
  | bracketed
deriving DecidableEq, Repr

instance : Inhabited Style := ⟨.plain⟩

structure DenseMatrix (α : Type u) extends Shape where
  values : Array α
deriving Repr

namespace DenseMatrix

variable {α : Type u}

/-! ## §1 Positions -/

/-- How many values a 64-bit word has. -/
def wordCount : Nat := 18446744073709551616

/-- The value of a number held in a 64-bit word. -/
def word (n : Nat) : Nat := n % wordCount

theorem word_of_lt {n : Nat} (h : n < wordCount) : word n = n := Nat.mod_eq_of_lt h

/-- The shape is not empty and has as many entries as there are. -/
structure WellFormed (a : DenseMatrix α) : Prop where
  rows_pos : 0 < a.rows
  cols_pos : 0 < a.cols
  size_values : a.values.size = a.rows * a.cols

/-! ## §2 Constructors -/

/-- The matrix with given rows. All rows must be as long as the first. -/
def ofRows (rows : List (List α)) : Except CalcFault (DenseMatrix α) :=
  let cols := (rows.head?.map List.length).getD 0
  if cols = 0 then .error .emptyMatrix
  else match rows.zipIdx.find? fun r => r.1.length != cols with
    | some (row, i) => .error (.raggedRows i cols row.length)
    | none => .ok ⟨⟨rows.length, cols⟩, rows.flatten.toArray⟩

/-- The matrix with given entries, row after row. -/
def ofFlat (rows cols : Nat) (values : Array α) : Except CalcFault (DenseMatrix α) :=
  if rows = 0 ∨ cols = 0 then .error .emptyMatrix
  else if values.size ≠ word (rows * cols) then
    .error (.raggedRows (values.size / cols) cols (values.size % cols))
  else .ok ⟨⟨rows, cols⟩, values⟩

def zeros [Scalar α] (rows cols : Nat) : Except CalcFault (DenseMatrix α) :=
  if rows = 0 ∨ cols = 0 then .error .emptyMatrix
  else .ok ⟨⟨rows, cols⟩, Array.replicate (word (rows * cols)) 0⟩

def ofGrid {m n : Nat} (g : Grid m n α) : DenseMatrix α := ⟨⟨m, n⟩, g.entries⟩

/-- The identity matrix: ones are written over zeros, each at its position in a word. Where the
positions do not fit into a word one of them can lie outside of the zeros, and the program stops;
`Storage.identity` says so, and here nothing is written. -/
def identity [Scalar α] (size : Nat) : Except CalcFault (DenseMatrix α) :=
  if size = 0 then .error .emptyMatrix
  else .ok ⟨⟨size, size⟩, (List.range' 0 size).foldl
    (fun values i => values.setIfInBounds (word (i * size + i)) 1)
    (Array.replicate (word (size * size)) 0)⟩

/-! ## §3 Access -/

/-- The entry in a row and a column, if both exist. -/
def get? (a : DenseMatrix α) (row col : Nat) : Option α :=
  if a.rows ≤ row ∨ a.cols ≤ col then none else a.values[word (row * a.cols + col)]?

def row? (a : DenseMatrix α) (row : Nat) : Option (List α) :=
  let start := word (row * a.cols)
  let stop := word (start + a.cols)
  if row < a.rows ∧ start ≤ stop ∧ stop ≤ a.values.size then
    some (a.values.extract start stop).toList
  else none

/-- The rows in order: the entries cut into pieces as long as a row. -/
def rowList (a : DenseMatrix α) : List (List α) :=
  (List.range ((a.values.size + a.cols - 1) / a.cols)).map fun i =>
    (a.values.extract (i * a.cols) (i * a.cols + a.cols)).toList

/-- The entries as a grid with `m` rows and `n` columns. -/
def view [Scalar α] (a : DenseMatrix α) (m n : Nat) : Grid m n α :=
  Grid.ofFn fun i j => a.values.getD (i * n + j) 0

@[simp] theorem entry_view [Scalar α] (a : DenseMatrix α) {m n : Nat} (i : Fin m) (j : Fin n) :
    (a.view m n).entry i j = a.values.getD (i * n + j) 0 := by
  simp [view]

def grid [Scalar α] (a : DenseMatrix α) : Grid a.rows a.cols α := a.view a.rows a.cols

/-- Matrices are equal if their shapes are and their entries test equal. -/
instance [BEq α] : BEq (DenseMatrix α) where
  beq a b := a.toShape == b.toShape && a.values == b.values

/-! ## §4 Well-formed matrices and grids -/

theorem grid_ofGrid [Scalar α] {m n : Nat} (g : Grid m n α) : (ofGrid g).grid = g := by
  refine Grid.ext_entry fun i j => ?_
  unfold grid
  rw [entry_view]
  exact Grid.getD_entries g i j 0

theorem wellFormed_ofGrid {m n : Nat} (g : Grid m n α) (hm : 0 < m) (hn : 0 < n) :
    (ofGrid g).WellFormed :=
  ⟨hm, hn, g.size_entries⟩

/-- A well-formed matrix loses nothing when it is read as a grid. -/
theorem ofGrid_grid [Scalar α] {a : DenseMatrix α} (h : a.WellFormed) : ofGrid a.grid = a := by
  obtain ⟨⟨rows, cols⟩, values⟩ := a
  have hsize : values.size = rows * cols := h.size_values
  have hcols : 0 < cols := h.cols_pos
  simp only [ofGrid, mk.injEq, true_and]
  refine Array.ext (by simpa using hsize.symm) fun k hk hk' => ?_
  have hi : k / cols < rows :=
    Nat.div_lt_of_lt_mul (by rw [Nat.mul_comm, ← hsize]; exact hk')
  have hj : k % cols < cols := Nat.mod_lt _ hcols
  have hkk : k / cols * cols + k % cols = k := by
    rw [Nat.mul_comm]
    exact Nat.div_add_mod k cols
  have hleft := Grid.getD_entries (grid ⟨⟨rows, cols⟩, values⟩) ⟨k / cols, hi⟩ ⟨k % cols, hj⟩ 0
  have hright := entry_view (⟨⟨rows, cols⟩, values⟩ : DenseMatrix α)
    (⟨k / cols, hi⟩ : Fin rows) (⟨k % cols, hj⟩ : Fin cols)
  simp only [hkk] at hleft hright
  rw [Array.getD_eq_getD_getElem?, Array.getElem?_eq_getElem hk, Option.getD_some] at hleft
  rw [Array.getD_eq_getD_getElem?, Array.getElem?_eq_getElem hk', Option.getD_some] at hright
  rw [hleft]
  exact hright

/-! ## §5 The written form -/

def rowTexts (a : DenseMatrix Float) : List String :=
  a.rowList.map fun row => " ".intercalate (row.map entryText)

def text (a : DenseMatrix Float) : Style → String
  | .plain => String.join (a.rowTexts.map (· ++ "\n"))
  | .bracketed => "[ " ++ " ; ".intercalate a.rowTexts ++ " ]"

end DenseMatrix

end MatrixCalc
