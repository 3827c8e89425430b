import MatrixCalc.DenseMatrix.Basic
import MatrixCalc.Grid.Elimination

/-!
# Matrix algebra

Sum, difference and product of two matrices, and the four operations on one. Shapes are checked
first; a fault carries the operator and the shapes of its operands.
-/

namespace MatrixCalc

universe u

namespace DenseMatrix

variable {α : Type u} [Scalar α]

/-! ## §1 Two operands -/

def misfit (op : Operator) (a b : DenseMatrix α) : CalcFault :=
  .unfitOperands op a.toShape b.toShape

/-- A matrix of the entries of two matrices of one shape, joined pairwise. -/
def zipEntries (op : Binary) (f : α → α → α) (a b : DenseMatrix α) :
    Except CalcFault (DenseMatrix α) :=
  if a.toShape = b.toShape then .ok { a with values := Array.zipWith f a.values b.values }
  else .error (misfit (.binary op) a b)

def add (a b : DenseMatrix α) : Except CalcFault (DenseMatrix α) :=
  zipEntries .plus (· + ·) a b

def sub (a b : DenseMatrix α) : Except CalcFault (DenseMatrix α) :=
  zipEntries .minus (· - ·) a b

/-- The product: the first matrix must have as many columns as the second has rows. -/
def mul (a b : DenseMatrix α) : Except CalcFault (DenseMatrix α) :=
  if a.cols = b.rows then .ok (ofGrid (a.grid.mul (b.view a.cols b.cols)))
  else .error (misfit (.binary .times) a b)

/-! ## §2 One operand -/

def transpose (a : DenseMatrix α) : DenseMatrix α := ofGrid a.grid.transpose

def echelon (a : DenseMatrix α) : DenseMatrix α := ofGrid a.grid.echelonSweep.final

def reducedEchelon (a : DenseMatrix α) : DenseMatrix α := ofGrid a.grid.reducedSweep.final

/-- Whether the reduced echelon form is the identity. -/
def isRegular (a : DenseMatrix α) : Bool :=
  a.reducedEchelon == ofGrid (Grid.identity a.rows)

/-- The inverse of a square matrix: what the row operations of the reduction make of the identity.
It is given also for a matrix without an inverse. -/
def inverse (a : DenseMatrix α) : Except CalcFault (DenseMatrix α) :=
  if a.isSquare then .ok (ofGrid a.grid.shadow) else .error (.notSquare a.toShape)

end DenseMatrix

end MatrixCalc
