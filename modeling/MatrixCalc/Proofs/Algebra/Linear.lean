import Mathlib.LinearAlgebra.Matrix.NonsingularInverse
import MatrixCalc.Proofs.Algebra.Exact

/-!
# Matrices of linear algebra

A grid over a field is a matrix of linear algebra: product and identity are those of matrices
(`Grid.toMatrix_mul`, `Grid.toMatrix_identity`). A matrix is invertible if some other one multiplies
it to the identity from both sides, which is what units are among the square matrices of linear
algebra (`DenseMatrix.isInvertible_iff`).
-/

namespace MatrixCalc

universe u

/-! ## §1 Grids -/

namespace Grid

variable {α : Type u} {m n k : Nat}

def toMatrix (a : Grid m n α) : Matrix (Fin m) (Fin n) α := Matrix.of a.entry

@[simp] theorem toMatrix_apply (a : Grid m n α) (i : Fin m) (j : Fin n) :
    a.toMatrix i j = a.entry i j := rfl

theorem exists_toMatrix_eq (x : Matrix (Fin m) (Fin n) α) : ∃ a : Grid m n α, a.toMatrix = x := by
  refine ⟨ofFn (Matrix.of.symm x), ?_⟩
  ext i j
  exact entry_ofFn (Matrix.of.symm x) i j

theorem toMatrix_inj {a b : Grid m n α} : a.toMatrix = b.toMatrix ↔ a = b := by
  refine ⟨fun h => ext_entry fun i j => ?_, fun h => h ▸ rfl⟩
  exact congrFun (congrFun h i) j

variable [Field α] [DecidableEq α]

/-- Over a field, entries are added up as a finite sum. -/
theorem sum_finRange (f : Fin k → α) : Scalar.sum ((List.finRange k).map f) = ∑ l, f l := by
  rw [Fin.sum_univ_def, List.sum_eq_foldl]
  rfl

@[simp] theorem toMatrix_mul (a : Grid m k α) (b : Grid k n α) :
    (a.mul b).toMatrix = a.toMatrix * b.toMatrix := by
  ext i j
  rw [toMatrix_apply, entry_mul, sum_finRange, Matrix.mul_apply]
  rfl

@[simp] theorem toMatrix_identity : (identity m : Grid m m α).toMatrix = 1 := by
  ext i j
  rw [toMatrix_apply, entry_identity, Matrix.one_apply]

end Grid

/-! ## §2 Matrices -/

namespace DenseMatrix

variable {α : Type u} [Scalar α]

theorem ofGrid_inj {m n : Nat} {g h : Grid m n α} : ofGrid g = ofGrid h ↔ g = h := by
  refine ⟨fun hgh => Grid.ext_entry fun i j => ?_, fun hgh => hgh ▸ rfl⟩
  have hvalues : g.entries = h.entries := congrArg values hgh
  rw [← Grid.getD_entries g i j 0, hvalues, Grid.getD_entries]

@[simp] theorem view_ofGrid {m n : Nat} (g : Grid m n α) : (ofGrid g).view m n = g := grid_ofGrid g

theorem ofGrid_view {a : DenseMatrix α} {m n : Nat} (h : a.WellFormed) (hm : a.rows = m)
    (hn : a.cols = n) : ofGrid (a.view m n) = a := by
  subst hm hn
  exact ofGrid_grid h

theorem mul_eq_ok_iff {a b c : DenseMatrix α} :
    a.mul b = .ok c ↔
      a.cols = b.rows ∧ ofGrid ((a.view a.rows a.cols).mul (b.view a.cols b.cols)) = c := by
  unfold mul
  by_cases h : a.cols = b.rows
  · rw [if_pos h, Except.ok.injEq]
    exact (and_iff_right h).symm
  · rw [if_neg h]
    exact iff_of_false nofun fun hc => h hc.1

theorem mul_eq_ok_ofGrid_iff {a b : DenseMatrix α} {m k n : Nat} {g : Grid m n α}
    (ha : a.toShape = ⟨m, k⟩) (hb : b.toShape = ⟨k, n⟩) :
    a.mul b = .ok (ofGrid g) ↔ (a.view m k).mul (b.view k n) = g := by
  obtain ⟨⟨_, _⟩, _⟩ := a
  obtain ⟨⟨_, _⟩, _⟩ := b
  cases ha
  cases hb
  rw [mul_eq_ok_iff, and_iff_right rfl, ofGrid_inj]

theorem mul_ofGrid {m k n : Nat} (g : Grid m k α) (h : Grid k n α) :
    (ofGrid g).mul (ofGrid h) = .ok (ofGrid (g.mul h)) :=
  (mul_eq_ok_ofGrid_iff (m := m) (k := k) (n := n) rfl rfl).2
    (by rw [view_ofGrid, view_ofGrid])

theorem WellFormed.exists_grid {a : DenseMatrix α} (h : a.WellFormed) :
    ∃ m n, ∃ g : Grid m n α, 0 < m ∧ 0 < n ∧ a = ofGrid g :=
  ⟨a.rows, a.cols, a.grid, h.rows_pos, h.cols_pos, (ofGrid_grid h).symm⟩

/-- Multiplied in either order, two matrices give the identity with as many rows as the first. -/
def IsInverse (a b : DenseMatrix α) : Prop :=
  a.mul b = .ok (ofGrid (Grid.identity a.rows)) ∧ b.mul a = .ok (ofGrid (Grid.identity a.rows))

def IsInvertible (a : DenseMatrix α) : Prop :=
  a.WellFormed ∧ ∃ b : DenseMatrix α, b.WellFormed ∧ a.IsInverse b

theorem IsInverse.shape_eq {a b : DenseMatrix α} (h : a.IsInverse b) :
    a.toShape = ⟨a.rows, a.rows⟩ ∧ b.toShape = ⟨a.rows, a.rows⟩ := by
  obtain ⟨hab, hba⟩ := h
  rw [mul_eq_ok_iff] at hab hba
  have hrows : b.rows = a.rows := congrArg (fun x => x.rows) hba.2
  have hcols : b.cols = a.rows := hba.1
  have hsquare : a.cols = a.rows := hab.1.trans hrows
  obtain ⟨⟨_, _⟩, _⟩ := a
  obtain ⟨⟨_, _⟩, _⟩ := b
  simp_all

end DenseMatrix

/-! ## §3 Invertible matrices over a field -/

namespace DenseMatrix

variable {α : Type u} [Field α] [DecidableEq α] {m : Nat}

theorem isInverse_iff {a b : DenseMatrix α} (ha : a.toShape = ⟨m, m⟩)
    (hb : b.toShape = ⟨m, m⟩) :
    a.IsInverse b ↔ (a.view m m).toMatrix * (b.view m m).toMatrix = 1 := by
  have hrows : a.rows = m := congrArg Shape.rows ha
  have hunit {x y : DenseMatrix α} (hx : x.toShape = ⟨m, m⟩) (hy : y.toShape = ⟨m, m⟩) :
      x.mul y = .ok (ofGrid (Grid.identity m)) ↔
        (x.view m m).toMatrix * (y.view m m).toMatrix = 1 := by
    rw [mul_eq_ok_ofGrid_iff hx hy, ← Grid.toMatrix_inj, Grid.toMatrix_mul, Grid.toMatrix_identity]
  unfold IsInverse
  rw [hrows, hunit ha hb, hunit hb ha, mul_eq_one_comm (a := (b.view m m).toMatrix), and_self]

/-- Being invertible is being a square unit. -/
theorem isInvertible_iff {a : DenseMatrix α} (ha : a.WellFormed) :
    a.IsInvertible ↔
      a.toShape = ⟨a.rows, a.rows⟩ ∧ IsUnit (a.view a.rows a.rows).toMatrix := by
  constructor
  · rintro ⟨-, b, -, hab⟩
    obtain ⟨hsquare, hb⟩ := hab.shape_eq
    rw [isInverse_iff hsquare hb] at hab
    exact ⟨hsquare, IsUnit.of_mul_eq_one _ hab⟩
  · rintro ⟨hsquare, hunit⟩
    obtain ⟨x, hx⟩ := hunit.exists_right_inv
    obtain ⟨g, rfl⟩ := Grid.exists_toMatrix_eq x
    refine ⟨ha, ofGrid g, wellFormed_ofGrid g ha.rows_pos ha.rows_pos, ?_⟩
    rw [isInverse_iff hsquare rfl, view_ofGrid]
    exact hx

theorem isInvertible_ofGrid {g : Grid m m α} (hm : 0 < m) :
    (ofGrid g).IsInvertible ↔ IsUnit g.toMatrix := by
  refine (isInvertible_iff (wellFormed_ofGrid g hm hm)).trans ((and_iff_right rfl).trans ?_)
  exact iff_of_eq (congrArg (fun x : Grid m m α => IsUnit x.toMatrix) (view_ofGrid g))

end DenseMatrix

end MatrixCalc
