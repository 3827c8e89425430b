import MatrixCalc.Proofs.Storage.Elimination
import MatrixCalc.Proofs.Storage.Results
import MatrixCalc.Proofs.Algebra.Linear
import MatrixCalc.Proofs.Outline.Soundness

/-!
# The shapes of operands and results

Each of the seven operations is written as it works on the stored values, with all of its accesses
and with the checks of the constructors at its end. It gives what the operation on matrices gives:
no access is outside of a matrix, and no check at the end fails.

For the operations themselves the shapes of the operands decide. A result is given exactly if they
go together; it is well formed and has the shape that it should have, and otherwise the fault names
the operator and the shapes (`DenseMatrix.shape_contract`).

§1 sums and differences · §2 the other operations · §3 shapes
-/

namespace MatrixCalc

open DenseMatrix (wordCount)

/-! ## §1 Sums and differences -/

namespace Storage

section Elementwise

variable {α : Type} {a b : DenseMatrix α}

/-- What a constructor or an operation on matrices gives. -/
def ofResult (r : Except CalcFault (DenseMatrix α)) : Except Failure (DenseMatrix α) :=
  r.mapError .fault

def elementwise (op : Binary) (f : α → α → α) (a b : DenseMatrix α) :
    Except Failure (DenseMatrix α) :=
  if a.toShape = b.toShape then
    ofResult (DenseMatrix.ofFlat a.rows a.cols (Array.zipWith f a.values b.values))
  else .error (.fault (.unfitOperands (.binary op) a.toShape b.toShape))

theorem elementwise_eq (op : Binary) (f : α → α → α) (ha : a.WellFormed) (hb : b.WellFormed)
    (hsize : a.rows * a.cols < wordCount) :
    elementwise op f a b = ofResult (DenseMatrix.zipEntries op f a b) := by
  unfold elementwise
  by_cases hshape : a.toShape = b.toShape
  · have hzip : DenseMatrix.zipEntries op f a b =
        .ok { a with values := Array.zipWith f a.values b.values } := by
      rw [DenseMatrix.zipEntries, if_pos hshape]
    have hwell := DenseMatrix.wellFormed_of_zipEntries ha hb hzip
    rw [if_pos hshape, hzip]
    exact congrArg ofResult (DenseMatrix.ofFlat_of_wellFormed hwell hsize)
  · rw [if_neg hshape, DenseMatrix.zipEntries, if_neg hshape]
    rfl

end Elementwise

/-! ## §2 The other operations -/

variable {α : Type} [Scalar α]

def mul (a b : DenseMatrix α) : Except Failure (DenseMatrix α) :=
  if a.cols = b.rows then do
    ofResult (DenseMatrix.ofFlat a.rows b.cols (← product a.toShape b.toShape a.values b.values))
  else .error (.fault (.unfitOperands (.binary .times) a.toShape b.toShape))

def transpose (a : DenseMatrix α) : Except Failure (DenseMatrix α) := do
  return ⟨a.toShape.transpose, ← transposed a.toShape a.values⟩

def echelon (a : DenseMatrix α) : Except Failure (DenseMatrix α) := do
  return ⟨a.toShape, ← echelonFrom a.toShape 0 0 a.values⟩

/-- The reduced row echelon form and what its row operations make of the identity. -/
def gaussJordan (a : DenseMatrix α) : Except Failure (DenseMatrix α × DenseMatrix α) := do
  let pair ← reduceFrom a.toShape 0 0 (a.values, ← unit a.rows)
  return (⟨a.toShape, pair.1⟩, ⟨⟨a.rows, a.rows⟩, pair.2⟩)

def reducedEchelon (a : DenseMatrix α) : Except Failure (DenseMatrix α) := do
  return (← gaussJordan a).1

def inverse (a : DenseMatrix α) : Except Failure (DenseMatrix α) :=
  if a.isSquare then do
    let pair ← gaussJordan a
    -- the reduced form is compared with another identity, to warn if it is not one
    let _ ← unit (α := α) a.rows
    return pair.2
  else .error (.fault (.notSquare a.toShape))

variable {a b : DenseMatrix α}

theorem entries_grid (ha : a.WellFormed) : a.grid.entries = a.values :=
  congrArg DenseMatrix.values (DenseMatrix.ofGrid_grid ha)

theorem mul_eq (ha : a.WellFormed) (hb : b.WellFormed) (hleft : a.rows * a.cols < wordCount)
    (hright : b.rows * b.cols < wordCount) (hsize : a.rows * b.cols < wordCount) :
    mul a b = ofResult (a.mul b) := by
  unfold mul
  by_cases hfit : a.cols = b.rows
  · have hshape : b.toShape = ⟨a.cols, b.cols⟩ := by rw [hfit]
    have hvalues : (b.view a.cols b.cols).entries = b.values :=
      congrArg DenseMatrix.values (DenseMatrix.ofGrid_view hb hfit.symm rfl)
    have hproduct := product_entries hleft (hfit ▸ hright) a.grid (b.view a.cols b.cols)
    rw [entries_grid ha, hvalues, ← hshape] at hproduct
    have hwell := DenseMatrix.wellFormed_ofGrid (a.grid.mul (b.view a.cols b.cols)) ha.rows_pos
      hb.cols_pos
    have hflat := DenseMatrix.ofFlat_of_wellFormed hwell hsize
    rw [if_pos hfit, DenseMatrix.mul, if_pos hfit]
    show (product ⟨a.rows, a.cols⟩ _ _ _).bind _ = _
    rw [hproduct]
    exact congrArg ofResult hflat
  · rw [if_neg hfit, DenseMatrix.mul, if_neg hfit]
    rfl

theorem transpose_eq (ha : a.WellFormed) (hsize : a.rows * a.cols < wordCount) :
    transpose a = .ok a.transpose := by
  have hvalues := transposed_entries hsize a.grid
  rw [entries_grid ha] at hvalues
  show (transposed ⟨a.rows, a.cols⟩ a.values).bind _ = _
  rw [hvalues]
  rfl

theorem echelon_eq (ha : a.WellFormed) (hsize : a.rows * a.cols < wordCount) :
    echelon a = .ok a.echelon := by
  have hvalues := echelonFrom_entries hsize 0 0 a.grid
  rw [entries_grid ha] at hvalues
  show (echelonFrom ⟨a.rows, a.cols⟩ 0 0 a.values).bind _ = _
  rw [hvalues]
  rfl

theorem gaussJordan_eq (ha : a.WellFormed) (hsize : a.rows * a.cols < wordCount)
    (hshadow : a.rows * a.rows < wordCount) :
    gaussJordan a = .ok (a.reducedEchelon, DenseMatrix.ofGrid a.grid.shadow) := by
  have hvalues := reduceFrom_entries hsize hshadow 0 0 a.grid (Grid.identity a.rows)
  rw [entries_grid ha] at hvalues
  show (unit a.rows).bind _ = _
  rw [unit_eq hshadow]
  show (reduceFrom ⟨a.rows, a.cols⟩ 0 0 (a.values, _)).bind _ = _
  rw [hvalues]
  rfl

theorem inverse_eq (ha : a.WellFormed) (hsize : a.rows * a.cols < wordCount) :
    inverse a = ofResult a.inverse := by
  unfold inverse DenseMatrix.inverse
  split
  next hsquare =>
    have hshadow : a.rows * a.rows < wordCount := by
      have hequal : a.rows = a.cols := eq_of_beq hsquare
      rwa [← hequal] at hsize
    rw [gaussJordan_eq ha hsize hshadow]
    show (unit a.rows).bind _ = _
    rw [unit_eq hshadow]
    rfl
  next => rfl

end Storage

/-! ## §3 Shapes -/

section Shapes

variable {α : Type}

/-- A matrix that is well formed and has a given shape. -/
structure DenseMatrix.Fills (c : DenseMatrix α) (s : Shape) : Prop where
  shape : c.toShape = s
  wellFormed : c.WellFormed

/-- A result of a given shape exactly if the operands go together, and otherwise a given fault. -/
structure DecidedBy {ε : Type} (r : Except ε (DenseMatrix α)) (fit : Prop) (s : Shape)
    (fault : ε) : Prop where
  result : fit → ∃ c, r = .ok c ∧ c.Fills s
  fault : ¬ fit → r = .error fault

end Shapes

namespace DenseMatrix

variable {α : Type} {a b : DenseMatrix α}

theorem decidedBy_zipEntries (op : Binary) (f : α → α → α) (ha : a.WellFormed)
    (hb : b.WellFormed) :
    DecidedBy (zipEntries op f a b) (a.toShape = b.toShape) a.toShape
      (.unfitOperands (.binary op) a.toShape b.toShape) := by
  refine ⟨fun hshape => ?_, fun hshape => ?_⟩
  · have hzip : zipEntries op f a b =
        .ok { a with values := Array.zipWith f a.values b.values } := by
      rw [zipEntries, if_pos hshape]
    exact ⟨_, hzip, rfl, wellFormed_of_zipEntries ha hb hzip⟩
  · rw [zipEntries, if_neg hshape]
    rfl

variable [Scalar α]

theorem decidedBy_mul (ha : a.WellFormed) (hb : b.WellFormed) :
    DecidedBy (a.mul b) (a.cols = b.rows) ⟨a.rows, b.cols⟩
      (.unfitOperands (.binary .times) a.toShape b.toShape) := by
  refine ⟨fun hfit => ?_, fun hfit => ?_⟩
  · exact ⟨_, by rw [mul, if_pos hfit], rfl, wellFormed_ofGrid _ ha.rows_pos hb.cols_pos⟩
  · rw [mul, if_neg hfit]
    rfl

theorem decidedBy_inverse (ha : a.WellFormed) :
    DecidedBy a.inverse (a.rows = a.cols) a.toShape (.notSquare a.toShape) := by
  have hsquare : a.isSquare = true ↔ a.rows = a.cols := beq_iff_eq
  refine ⟨fun hequal => ⟨_, by rw [inverse, if_pos (hsquare.2 hequal)], ?_, ?_⟩, fun hne => ?_⟩
  · show (⟨a.rows, a.rows⟩ : Shape) = ⟨a.rows, a.cols⟩
    rw [← hequal]
  · exact wellFormed_ofGrid _ ha.rows_pos ha.rows_pos
  · rw [inverse, if_neg fun h => hne (hsquare.1 h)]

/-- The shapes of the operands decide whether an operation has a result and which shape it has, and
nothing else does. On the way to the result every entry that is read or written is an entry of its
matrix. -/
theorem shape_contract (a b : DenseMatrix α) (ha : a.WellFormed) (hb : b.WellFormed)
    (hleft : a.rows * a.cols < wordCount) (hright : b.rows * b.cols < wordCount) :
    (DecidedBy (a.add b) (a.toShape = b.toShape) a.toShape
        (.unfitOperands (.binary .plus) a.toShape b.toShape) ∧
      DecidedBy (a.sub b) (a.toShape = b.toShape) a.toShape
        (.unfitOperands (.binary .minus) a.toShape b.toShape) ∧
      DecidedBy (a.mul b) (a.cols = b.rows) ⟨a.rows, b.cols⟩
        (.unfitOperands (.binary .times) a.toShape b.toShape) ∧
      DecidedBy a.inverse (a.rows = a.cols) a.toShape (.notSquare a.toShape) ∧
      a.transpose.Fills ⟨a.cols, a.rows⟩ ∧ a.echelon.Fills a.toShape ∧
      a.reducedEchelon.Fills a.toShape) ∧
    (Storage.elementwise .plus (· + ·) a b = Storage.ofResult (a.add b) ∧
      Storage.elementwise .minus (· - ·) a b = Storage.ofResult (a.sub b) ∧
      (a.rows * b.cols < wordCount → Storage.mul a b = Storage.ofResult (a.mul b)) ∧
      Storage.inverse a = Storage.ofResult a.inverse ∧
      Storage.transpose a = .ok a.transpose ∧ Storage.echelon a = .ok a.echelon ∧
      (a.rows * a.rows < wordCount →
        Storage.gaussJordan a = .ok (a.reducedEchelon, ofGrid a.grid.shadow) ∧
          Storage.reducedEchelon a = .ok a.reducedEchelon)) := by
  refine ⟨⟨decidedBy_zipEntries .plus _ ha hb, decidedBy_zipEntries .minus _ ha hb,
    decidedBy_mul ha hb, decidedBy_inverse ha, ⟨rfl, wellFormed_ofGrid _ ha.cols_pos ha.rows_pos⟩,
    ⟨rfl, wellFormed_ofGrid _ ha.rows_pos ha.cols_pos⟩,
    ⟨rfl, wellFormed_ofGrid _ ha.rows_pos ha.cols_pos⟩⟩,
    Storage.elementwise_eq .plus _ ha hb hleft, Storage.elementwise_eq .minus _ ha hb hleft,
    Storage.mul_eq ha hb hleft hright, Storage.inverse_eq ha hleft, Storage.transpose_eq ha hleft,
    Storage.echelon_eq ha hleft, fun hshadow => ?_⟩
  have hpass := Storage.gaussJordan_eq ha hleft hshadow
  refine ⟨hpass, ?_⟩
  rw [Storage.reducedEchelon, hpass]
  rfl

/-- A matrix with more columns than rows, and one with more rows than columns. -/
theorem shape_contract_wide :
    let a : DenseMatrix Float := ofGrid #v[#v[1, 2, 3], #v[2, 4, 8]]
    let b : DenseMatrix Float := ofGrid #v[#v[1, 0], #v[0, 1], #v[1, 1]]
    a.add b = .error (.unfitOperands (.binary .plus) ⟨2, 3⟩ ⟨3, 2⟩) ∧
      (∃ c, a.mul b = .ok c ∧ c.Fills ⟨2, 2⟩) ∧ a.inverse = .error (.notSquare ⟨2, 3⟩) ∧
      a.transpose.Fills ⟨3, 2⟩ ∧ Storage.echelon a = .ok a.echelon ∧
      Storage.gaussJordan a = .ok (a.reducedEchelon, ofGrid a.grid.shadow) := by
  intro a b
  have ha : a.WellFormed := wellFormed_ofGrid _ (Nat.succ_pos 1) (Nat.succ_pos 2)
  have hb : b.WellFormed := wellFormed_ofGrid _ (Nat.succ_pos 2) (Nat.succ_pos 1)
  obtain ⟨⟨hadd, -, hmul, hinverse, htranspose, -, -⟩, -, -, -, -, -, hechelon, hpass⟩ :=
    shape_contract a b ha hb (by decide) (by decide)
  exact ⟨hadd.fault (by decide), hmul.result rfl, hinverse.fault (by decide), htranspose, hechelon,
    (hpass (by decide)).1⟩

end DenseMatrix

end MatrixCalc
