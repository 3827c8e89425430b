import MatrixCalc.DenseMatrix.Arithmetic
import MatrixCalc.Journal

/-!
# Items

An expression is a sequence of items: operators, group brackets and matrices. The operators stand
for operations on matrices, which leave notes on the elimination.
-/

namespace MatrixCalc

universe u

variable {α : Type u}

/-! ## §1 Items -/

inductive Item (α : Type u) where
  | operator (op : Operator)
  | operand (a : DenseMatrix α)
deriving Repr

namespace Item

def operator? : Item α → Option Operator
  | operator op => some op
  | operand _ => none

def operand? : Item α → Option (DenseMatrix α)
  | operator _ => none
  | operand a => some a

end Item

/-! ## §2 What operators do -/

variable [Scalar α]

def Sweep.notes {m n : Nat} (note : Nat → Nat → Nat → Note) (s : Sweep m n α) : List Note :=
  s.pivots.map fun p => note p.source p.column p.target

def Unary.apply (u : Unary) (a : DenseMatrix α) : Logged (DenseMatrix α) :=
  match u with
  | .transpose => pure a.transpose
  | .ref => ⟨a.grid.echelonSweep.notes .echelonPivot, .ok a.echelon⟩
  | .rref => ⟨a.grid.reducedSweep.notes .reducedPivot, .ok a.reducedEchelon⟩
  | .inverse =>
    match a.inverse with
    | .error f => .fail (.calculation f)
    | .ok b =>
      let warning := if a.isRegular then [] else [.singular a.rows]
      ⟨a.grid.reducedSweep.notes .reducedPivot ++ warning, .ok b⟩

def Binary.apply (b : Binary) (left right : DenseMatrix α) : Except CalcFault (DenseMatrix α) :=
  match b with
  | .times => left.mul right
  | .minus => left.sub right
  | .plus => left.add right

end MatrixCalc
