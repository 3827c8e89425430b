import MatrixCalc.Grid.Basic

/-!
# Elimination

Both echelon forms come from one sweep. From the current row and column on, the sweep looks for a
pivot: the leftmost column with an entry other than zero in the current row or below, and the
topmost such entry. One step moves the pivot's row to the current row and clears the pivot's
column; then the sweep goes on one row further down and right of the pivot.

`clearBelow` is the step of the echelon form. The step of the reduced form is a `RowOperation`,
which is read off one grid and can be applied to any grid with as many rows: replaying the
operations of a sweep on the identity gives the matrix that the sweep multiplies by.
-/

namespace MatrixCalc

universe u

/-- A pivot: the row and the column where it stands and the row it is moved to. -/
structure Pivot (m n : Nat) where
  source : Fin m
  column : Fin n
  target : Fin m
deriving DecidableEq, Repr

namespace Grid

variable {α : Type u} {m n : Nat}

/-! ## §1 Rows -/

def swapRows (a : Grid m n α) (r s : Fin m) : Grid m n α :=
  ofFn fun i => a.entry (if i = r then s else if i = s then r else i)

@[simp] theorem entry_swapRows (a : Grid m n α) (r s i : Fin m) (j : Fin n) :
    (a.swapRows r s).entry i j =
      a.entry (if i = r then s else if i = s then r else i) j := by
  simp [swapRows]

/-- The entry `x` of a row less `factor` times the entry `lead` of another; a row is left as it is
if the factor is zero. -/
def reduceEntry [Scalar α] (factor lead x : α) : α :=
  if Scalar.isZero factor then x else x - factor * lead

/-! ## §2 Pivots -/

variable [Scalar α]

/-- The topmost row from `row` on whose entry in a column is not zero. -/
def pivotRow? (a : Grid m n α) (row : Fin m) (j : Fin n) : Option (Fin m) :=
  (List.finRange m).find? fun i => row ≤ i && !Scalar.isZero (a.entry i j)

/-- The pivot for a row, searched from column `col` on. -/
def findPivot? (a : Grid m n α) (row : Fin m) (col : Nat) : Option (Pivot m n) :=
  (List.finRange n).findSome? fun j =>
    if col ≤ j.val then (a.pivotRow? row j).map fun i => ⟨i, j, row⟩ else none

/-! ## §3 The steps -/

/-- The step of the echelon form: the pivot's row is moved, then subtracted from every row below
as often as clears the pivot's column, where the remainder is set to zero outright. -/
def clearBelow (a : Grid m n α) (p : Pivot m n) : Grid m n α :=
  let moved := a.swapRows p.target p.source
  let lead := moved.entry p.target
  ofFn fun i j =>
    let factor := moved.entry i p.column / lead p.column
    if p.target < i then
      if j = p.column ∧ Scalar.isZero factor = false then 0
      else reduceEntry factor (lead j) (moved.entry i j)
    else moved.entry i j

@[simp] theorem entry_clearBelow (a : Grid m n α) (p : Pivot m n) (i : Fin m) (j : Fin n) :
    (a.clearBelow p).entry i j =
      if p.target < i then
        if j = p.column ∧ Scalar.isZero ((a.swapRows p.target p.source).entry i p.column /
            (a.swapRows p.target p.source).entry p.target p.column) = false then 0
        else reduceEntry ((a.swapRows p.target p.source).entry i p.column /
            (a.swapRows p.target p.source).entry p.target p.column)
          ((a.swapRows p.target p.source).entry p.target j)
          ((a.swapRows p.target p.source).entry i j)
      else (a.swapRows p.target p.source).entry i j := by
  simp only [clearBelow, entry_ofFn]

end Grid

/-- An operation on the rows of a grid: two rows are exchanged, the row now at `target` is divided,
and multiples of it are subtracted from the others. -/
structure RowOperation (m : Nat) (α : Type u) where
  source : Fin m
  target : Fin m
  divisor : α
  /-- How often the divided row is subtracted from each of the others. -/
  factor : Fin m → α

namespace RowOperation

variable {α : Type u} [Scalar α] {m n k : Nat}

/-- The operation that turns a pivot into one and clears the rest of its column. -/
def ofPivot (a : Grid m n α) (p : Pivot m n) : RowOperation m α :=
  let moved := a.swapRows p.target p.source
  { source := p.source
    target := p.target
    divisor := moved.entry p.target p.column
    factor := fun i => moved.entry i p.column }

def apply (op : RowOperation m α) (a : Grid m k α) : Grid m k α :=
  let moved := a.swapRows op.target op.source
  let lead := fun j => moved.entry op.target j / op.divisor
  Grid.ofFn fun i j =>
    if i = op.target then lead j else Grid.reduceEntry (op.factor i) (lead j) (moved.entry i j)

@[simp] theorem entry_apply (op : RowOperation m α) (a : Grid m k α) (i : Fin m) (j : Fin k) :
    (op.apply a).entry i j =
      if i = op.target then (a.swapRows op.target op.source).entry op.target j / op.divisor
      else Grid.reduceEntry (op.factor i)
        ((a.swapRows op.target op.source).entry op.target j / op.divisor)
        ((a.swapRows op.target op.source).entry i j) := by
  simp only [apply, Grid.entry_ofFn]

end RowOperation

/-! ## §4 The sweep -/

/-- A stage of a sweep: the pivot that was found and the grid it was found in. -/
structure Stage (m n : Nat) (α : Type u) where
  before : Grid m n α
  pivot : Pivot m n

/-- A sweep: its stages in order and the grid at its end. -/
structure Sweep (m n : Nat) (α : Type u) where
  stages : List (Stage m n α)
  final : Grid m n α

namespace Sweep

variable {α : Type u} [Scalar α] {m n : Nat}

def pivots (s : Sweep m n α) : List (Pivot m n) := s.stages.map (·.pivot)

/-- The sweep with a given step from a row and a column on. -/
def run (step : Grid m n α → Pivot m n → Grid m n α) (row col : Nat) (a : Grid m n α) :
    Sweep m n α :=
  if h : row < m then
    match a.findPivot? ⟨row, h⟩ col with
    | none => ⟨[], a⟩
    | some p =>
      let rest := run step (row + 1) (p.column + 1) (step a p)
      ⟨⟨a, p⟩ :: rest.stages, rest.final⟩
  else ⟨[], a⟩
termination_by m - row

end Sweep

namespace Grid

variable {α : Type u} [Scalar α] {m n : Nat}

def echelonSweep (a : Grid m n α) : Sweep m n α := Sweep.run clearBelow 0 0 a

def reducedSweep (a : Grid m n α) : Sweep m n α :=
  Sweep.run (fun b p => (RowOperation.ofPivot b p).apply b) 0 0 a

/-- The row operations of the sweep to the reduced form, carried out on the identity. -/
def shadow (a : Grid m n α) : Grid m m α :=
  a.reducedSweep.stages.foldl (fun s st => (RowOperation.ofPivot st.before st.pivot).apply s)
    (identity m)

end Grid

end MatrixCalc
