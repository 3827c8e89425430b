import MatrixCalc.Proofs.Algebra.Canonical
import MatrixCalc.Proofs.Algebra.Clearing

/-!
# The echelon form of exact entries

In exact arithmetic only zero has a quotient of zero, so the sweep clears everything below its
pivots, and its steps are multiplications by invertible matrices: the echelon form has the same row
space (`DenseMatrix.echelon_row_space`).
-/

namespace MatrixCalc

universe u

section Field

variable {α : Type u} [Field α] [DecidableEq α] {m n : Nat}

instance (priority := low) Scalar.KeepsZeros.ofField : Scalar.KeepsZeros α where
  isZero_zero := beq_self_eq_true 0
  isZero_sub_mul factor hy _ := by rw [eq_of_beq hy, mul_zero, sub_zero]

/-- Without rounding, only a zero has a quotient that is zero. -/
theorem Stage.clears_of_ne_zero {st : Stage m n α}
    (h : st.before.entry st.pivot.source st.pivot.column ≠ 0) : st.Clears := by
  intro i _ hfactor
  have hpivot : st.moved.entry st.pivot.target st.pivot.column ≠ 0 := by
    rwa [Stage.moved, Grid.entry_swapRows, if_pos rfl]
  exact beq_iff_eq.2 ((div_eq_zero_iff.1 (eq_of_beq hfactor)).resolve_right hpivot)

theorem Grid.isEchelon_echelonSweep (a : Grid m n α) : a.echelonSweep.final.IsEchelon :=
  (isEchelon_echelonSweep_iff fun _ _ _ _ => trivial).2 fun st hst =>
    Stage.clears_of_ne_zero (Sweep.entry_pivot_ne_zero 0 0 a st hst)

end Field

namespace DenseMatrix

variable {α : Type u}

/-- Row echelon form. -/
def IsEchelon [Scalar α] (a : DenseMatrix α) : Prop := a.grid.IsEchelon

variable [Field α] [DecidableEq α]

/-- In exact arithmetic the echelon form is the matrix multiplied by an invertible one, and it is in
row echelon form. -/
theorem echelon_row_space (a : DenseMatrix α) (ha : a.WellFormed) :
    (∃ p : DenseMatrix α, p.IsInvertible ∧ p.mul a = .ok a.echelon) ∧ a.echelon.IsEchelon := by
  obtain ⟨p, hp, hmul⟩ := (rowEquivalent_iff ha.rows_pos).1 a.grid.rowEquivalent_echelonSweep
  rw [ofGrid_grid ha] at hmul
  refine ⟨⟨p, hp, hmul⟩, ?_⟩
  rw [IsEchelon, echelon, grid_ofGrid]
  exact a.grid.isEchelon_echelonSweep

/-- A matrix of rationals without a pivot in its first and its third column, for which rows have to
be exchanged. -/
theorem echelon_row_space_rationals :
    let a : DenseMatrix ℚ := ofGrid #v[#v[0, 0, 0, 5], #v[0, 2, 4, 1], #v[0, 3, 6, 1]]
    a.echelon = ofGrid #v[#v[0, 2, 4, 1], #v[0, 0, 0, 5], #v[0, 0, 0, 0]] ∧
      (∃ p : DenseMatrix ℚ, p.IsInvertible ∧ p.mul a = .ok a.echelon) ∧ a.echelon.IsEchelon := by
  intro a
  obtain ⟨hmul, hform⟩ := echelon_row_space a
    (wellFormed_ofGrid _ (Nat.succ_pos 2) (Nat.succ_pos 3))
  refine ⟨?_, hmul, hform⟩
  rw [← beq_iff]
  decide +kernel

end DenseMatrix

end MatrixCalc
