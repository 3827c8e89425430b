import Mathlib.Data.Rat.Defs
import MatrixCalc.Proofs.Algebra.Canonical

/-!
# Inverses

The shadow of the sweep to the reduced form is the matrix that the sweep multiplies by, so it is an
inverse exactly if the sweep ends in the identity. Over a field it does if there is an inverse at
all: the identity is its own reduced form, and that form is the same for all multiples by an
invertible matrix (`Grid.reducedSweep_eq_identity_iff`).
-/

namespace MatrixCalc

universe u

/-! ## §1 Reduction to the identity -/

namespace Reduction

variable {α : Type u} [Field α] {m : Nat}

theorem isReducedRowEchelon_one : (1 : Matrix (Fin m) (Fin m) α).IsReducedRowEchelon := by
  have hlead {i c : Fin m} (hc : (1 : Matrix (Fin m) (Fin m) α) i c ≠ 0) : i = c := by
    by_contra hic
    exact hc (Matrix.one_apply_ne hic)
  refine ⟨fun i k hik j hleft => ?_, fun i c hc => ?_, fun i k c hik hc => ?_⟩
  · refine Matrix.one_apply_ne fun hkj => ?_
    exact one_ne_zero ((Matrix.one_apply_eq i).symm.trans (hleft i (hkj ▸ hik)))
  · rw [hlead hc.2, Matrix.one_apply_eq]
  · rw [← hlead hc.2, Matrix.one_apply_ne hik.ne]

end Reduction

namespace Grid

variable {α : Type u} [Field α] [DecidableEq α] {m n : Nat}

/-- A grid in reduced form is left as it is. -/
theorem reducedSweep_of_isReduced {a : Grid m n α} (h : a.toMatrix.IsReducedRowEchelon) :
    a.reducedSweep.final = a := by
  obtain ⟨x, -, hx⟩ := a.rowEquivalent_reducedSweep
  obtain ⟨y, -, hy⟩ := a.rowEquivalent_reducedSweep.symm
  exact toMatrix_inj.1 (Reduction.eq_of_multiples h a.isReducedRowEchelon_reducedSweep hx hy)

/-- The square grids that the sweep reduces to the identity are those with an inverse. -/
theorem reducedSweep_eq_identity_iff {a : Grid m m α} :
    a.reducedSweep.final = identity m ↔ IsUnit a.toMatrix := by
  constructor
  · intro h
    have hmul := a.toMatrix_reducedSweep
    rw [h, toMatrix_identity] at hmul
    exact IsUnit.of_mul_eq_one_right _ hmul.symm
  · intro h
    have hone : (identity m : Grid m m α).reducedSweep.final = identity m := by
      refine reducedSweep_of_isReduced ?_
      rw [toMatrix_identity]
      exact Reduction.isReducedRowEchelon_one
    have heq : RowEquivalent (identity m) a :=
      ⟨a.toMatrix, h, by rw [toMatrix_identity, Matrix.mul_one]⟩
    rw [← reducedSweep_eq_iff.2 heq, hone]

end Grid

/-! ## §2 The inverse of a matrix -/

namespace DenseMatrix

variable {α : Type u} [Field α] [DecidableEq α]

theorem mul_shadow {m n : Nat} (g : Grid m n α) :
    (ofGrid g.shadow).mul (ofGrid g) = .ok (ofGrid g.reducedSweep.final) := by
  refine (mul_eq_ok_ofGrid_iff (m := m) (k := m) rfl rfl).2 ?_
  rw [view_ofGrid, view_ofGrid, ← Grid.toMatrix_inj, Grid.toMatrix_mul, Grid.toMatrix_reducedSweep]

/-- Whether a square matrix has an inverse is told by its reduced form. -/
theorem isRegular_ofGrid {m : Nat} {g : Grid m m α} (hm : 0 < m) :
    (ofGrid g).isRegular = true ↔ (ofGrid g).IsInvertible := by
  rw [isInvertible_ofGrid hm, ← Grid.reducedSweep_eq_identity_iff, ← ofGrid_inj]
  exact beq_iff.trans (by rw [reducedEchelon_ofGrid]; rfl)

def inversionWarnings (a : DenseMatrix α) : List Note :=
  (Unary.inverse.apply a).notes.filter fun note => note.level = .warn

/-- An inversion of a square matrix warns if the reduced form is not the identity. -/
theorem inversionWarnings_of_square {a s : DenseMatrix α} (h : a.inverse = .ok s) :
    a.inversionWarnings = if a.isRegular then [] else [.singular a.rows] := by
  have hpivots (pivots : List (Pivot a.rows a.cols)) :
      (pivots.map fun p => Note.reducedPivot p.source p.column p.target).filter
        (fun note => note.level = .warn) = [] := by
    refine List.filter_eq_nil_iff.2 fun note hnote => ?_
    obtain ⟨p, -, rfl⟩ := List.mem_map.1 hnote
    simp [Note.level]
  rw [inversionWarnings, Unary.apply, h]
  dsimp only
  rw [List.filter_append, Sweep.notes, hpivots, List.nil_append]
  split <;> rfl

theorem inverse_ofGrid {m : Nat} (g : Grid m m α) : (ofGrid g).inverse = .ok (ofGrid g.shadow) := by
  have hshadow : ofGrid (ofGrid g).grid.shadow = ofGrid g.shadow :=
    congrArg (fun x : Grid m m α => ofGrid x.shadow) (grid_ofGrid g)
  have hsquare : (ofGrid g).isSquare = true := beq_self_eq_true m
  rw [inverse, if_pos hsquare, hshadow]

/-- The shadow of the sweep, multiplied by the matrix, is its reduced form, and it has an inverse
itself. So what is given as the inverse of a square matrix multiplies it to its reduced form. If the
matrix has an inverse, this is it, and no warning is given; if it has none, the reduced form is not
the identity and there is one warning. A matrix that is not square is refused with its shape. -/
theorem inverse_inverts (a : DenseMatrix α) (ha : a.WellFormed) :
    (ofGrid a.grid.shadow).toShape = ⟨a.rows, a.rows⟩ ∧
      (ofGrid a.grid.shadow).IsInvertible ∧
      (ofGrid a.grid.shadow).mul a = .ok a.reducedEchelon ∧
      (a.rows = a.cols → ∃ s, a.inverse = .ok s ∧ s.mul a = .ok a.reducedEchelon ∧
        (a.IsInvertible → s.mul a = .ok (ofGrid (Grid.identity a.rows)) ∧
          a.mul s = .ok (ofGrid (Grid.identity a.rows)) ∧ a.inversionWarnings = []) ∧
        (¬ a.IsInvertible → a.reducedEchelon ≠ ofGrid (Grid.identity a.rows) ∧
          a.inversionWarnings = [.singular a.rows])) ∧
      (a.rows ≠ a.cols → a.inverse = .error (.notSquare a.toShape)) := by
  have hmul : (ofGrid a.grid.shadow).mul a = .ok a.reducedEchelon := by
    have h := mul_shadow a.grid
    rwa [ofGrid_grid ha] at h
  refine ⟨rfl, (isInvertible_ofGrid ha.rows_pos).2 a.grid.isUnit_shadow, hmul, fun hsquare => ?_,
    fun hsquare => if_neg fun h => hsquare (eq_of_beq h)⟩
  obtain ⟨m, g, rfl, hm⟩ : ∃ m, ∃ g : Grid m m α, ofGrid g = a ∧ 0 < m :=
    ⟨a.rows, a.view a.rows a.rows, ofGrid_view ha rfl hsquare.symm, ha.rows_pos⟩
  have hinverse := inverse_ofGrid g
  refine ⟨_, hinverse, ?_, fun h => ?_, fun h => ?_⟩
  · rw [mul_shadow, reducedEchelon_ofGrid]
  · have hregular := (isRegular_ofGrid hm).2 h
    have hone : (ofGrid g).reducedEchelon = ofGrid (Grid.identity m) := beq_iff.1 hregular
    have hleft : (ofGrid g.shadow).IsInverse (ofGrid g) := by
      rw [isInverse_iff rfl rfl, view_ofGrid, view_ofGrid, ← Grid.toMatrix_reducedSweep,
        Grid.reducedSweep_eq_identity_iff.2 ((isInvertible_ofGrid hm).1 h), Grid.toMatrix_identity]
    refine ⟨hleft.1, hleft.2, ?_⟩
    rw [inversionWarnings_of_square hinverse, if_pos hregular]
  · have hregular := (isRegular_ofGrid hm).not.2 h
    refine ⟨fun hone => hregular (beq_iff.2 hone), ?_⟩
    rw [inversionWarnings_of_square hinverse, if_neg hregular]

/-- A matrix of rationals with an inverse, for which the sweep has to exchange its rows, and one
without. -/
theorem inverse_inverts_rationals :
    ((ofGrid #v[#v[0, 2], #v[1, 1]] : DenseMatrix ℚ).IsInvertible ∧
      ∃ s, (ofGrid #v[#v[0, 2], #v[1, 1]] : DenseMatrix ℚ).inverse = .ok s ∧
        s.mul (ofGrid #v[#v[0, 2], #v[1, 1]]) = .ok (ofGrid (Grid.identity 2))) ∧
    (¬ (ofGrid #v[#v[1, 2], #v[2, 4]] : DenseMatrix ℚ).IsInvertible ∧
      (ofGrid #v[#v[1, 2], #v[2, 4]] : DenseMatrix ℚ).inversionWarnings = [.singular 2]) := by
  have hregular : (ofGrid #v[#v[0, 2], #v[1, 1]] : DenseMatrix ℚ).IsInvertible :=
    (isRegular_ofGrid Nat.two_pos).1 (by decide +kernel)
  have hsingular : ¬ (ofGrid #v[#v[1, 2], #v[2, 4]] : DenseMatrix ℚ).IsInvertible :=
    (isRegular_ofGrid Nat.two_pos).not.1 (by decide +kernel)
  obtain ⟨-, -, -, hsquare, -⟩ := inverse_inverts _ hregular.1
  obtain ⟨s, hs, -, hinverse, -⟩ := hsquare rfl
  obtain ⟨-, -, -, hsquare', -⟩ := inverse_inverts (ofGrid #v[#v[1, 2], #v[2, 4]] : DenseMatrix ℚ)
    (wellFormed_ofGrid _ Nat.two_pos Nat.two_pos)
  obtain ⟨-, -, -, -, hwarned⟩ := hsquare' rfl
  exact ⟨⟨hregular, s, hs, (hinverse hregular).1⟩, hsingular, (hwarned hsingular).2⟩

end DenseMatrix

end MatrixCalc
