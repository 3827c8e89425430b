import Mathlib.LinearAlgebra.Matrix.ToLin
import MatrixCalc.Proofs.Algebra.Linear
import MatrixCalc.Proofs.Algebra.Pivots

/-!
# Sweeps are products

In exact arithmetic a row operation multiplies from the left by a matrix that depends on the
operation alone (`RowOperation.toMatrix_apply`), a unit unless it divides by zero. A sweep carries
out one operation for each of its pivots, so it multiplies by the product of their matrices
(`Grid.toMatrix_reducedSweep`, `Grid.toMatrix_echelonSweep`), which is what the shadow of the sweep
to the reduced form holds (`Grid.toMatrix_shadow`).
-/

namespace MatrixCalc

universe u

/-! ## §1 One operation -/

namespace RowOperation

variable {α : Type u} [Field α] [DecidableEq α] {m n : Nat}

/-- Without rounding, leaving a row as it is and subtracting nothing from it are the same. -/
theorem reduceEntry_eq (factor lead x : α) :
    Grid.reduceEntry factor lead x = x - factor * lead := by
  unfold Grid.reduceEntry Scalar.isZero
  split
  next h => rw [eq_of_beq h, zero_mul, sub_zero]
  next => rfl

theorem entry_apply_eq (op : RowOperation m α) (a : Grid m n α) (i : Fin m) (j : Fin n) :
    (op.apply a).entry i j =
      if i = op.target then a.entry op.source j / op.divisor
      else a.entry (Equiv.swap op.target op.source i) j -
        op.factor i * (a.entry op.source j / op.divisor) := by
  rw [entry_apply, reduceEntry_eq, Grid.entry_swapRows_eq, Grid.entry_swapRows_eq,
    Equiv.swap_apply_left]

/-- The matrix that an operation multiplies by. -/
def matrix (op : RowOperation m α) : Matrix (Fin m) (Fin m) α :=
  (op.apply (Grid.identity m)).toMatrix

/-- A row of the matrix of an operation, multiplied by a column: what the operation makes of it. -/
theorem dotProduct_matrix (op : RowOperation m α) (i : Fin m) (v : Fin m → α) :
    dotProduct (op.matrix i) v =
      if i = op.target then v op.source / op.divisor
      else v (Equiv.swap op.target op.source i) - op.factor i * (v op.source / op.divisor) := by
  have hone (k : Fin m) : dotProduct ((1 : Matrix (Fin m) (Fin m) α) k) v = v k :=
    congrFun (Matrix.one_mulVec v) k
  have hrow : op.matrix i =
      if i = op.target then op.divisor⁻¹ • (1 : Matrix (Fin m) (Fin m) α) op.source
      else (1 : Matrix (Fin m) (Fin m) α) (Equiv.swap op.target op.source i) -
        (op.factor i * op.divisor⁻¹) • (1 : Matrix (Fin m) (Fin m) α) op.source := by
    ext j
    rw [matrix, Grid.toMatrix_apply, entry_apply_eq, ← Grid.toMatrix_identity]
    split <;> simp only [Pi.sub_apply, Pi.smul_apply, smul_eq_mul, Grid.toMatrix_apply] <;> ring
  rw [hrow]
  split
  · rw [smul_dotProduct, hone, smul_eq_mul, div_eq_inv_mul]
  · rw [sub_dotProduct, smul_dotProduct, hone, hone, smul_eq_mul, div_eq_inv_mul, mul_assoc]

/-- An operation on the rows of a grid multiplies it from the left. -/
theorem toMatrix_apply (op : RowOperation m α) (a : Grid m n α) :
    (op.apply a).toMatrix = op.matrix * a.toMatrix := by
  ext i j
  rw [Matrix.mul_apply', dotProduct_matrix, Grid.toMatrix_apply, entry_apply_eq]
  rfl

/-- An operation that does not divide by zero can be undone. -/
theorem isUnit_matrix {op : RowOperation m α} (h : op.divisor ≠ 0) : IsUnit op.matrix := by
  rw [← Matrix.mulVec_injective_iff_isUnit]
  intro v w hvw
  have hrow (i : Fin m) : dotProduct (op.matrix i) v = dotProduct (op.matrix i) w := congrFun hvw i
  simp only [dotProduct_matrix] at hrow
  have hsource : v op.source = w op.source := by
    have htarget := hrow op.target
    rwa [if_pos rfl, if_pos rfl, div_left_inj' h] at htarget
  ext k
  -- the row that the exchange brings to place `k`
  have hk := hrow (Equiv.swap op.target op.source k)
  rw [Equiv.swap_apply_self, hsource] at hk
  by_cases htarget : Equiv.swap op.target op.source k = op.target
  · rw [Equiv.swap_apply_eq_iff, Equiv.swap_apply_left] at htarget
    rw [htarget, hsource]
  · rwa [if_neg htarget, if_neg htarget, sub_left_inj] at hk

end RowOperation

/-! ## §2 Operations one after the other -/

namespace RowOperation

variable {α : Type u} [Field α] [DecidableEq α] {m n : Nat}

/-- The matrix that some operations, carried out in order, multiply by. -/
def product (ops : List (RowOperation m α)) : Matrix (Fin m) (Fin m) α :=
  (ops.map matrix).reverse.prod

theorem toMatrix_foldl (ops : List (RowOperation m α)) (a : Grid m n α) :
    (ops.foldl (fun b op => op.apply b) a).toMatrix = product ops * a.toMatrix := by
  induction ops generalizing a with
  | nil => exact (Matrix.one_mul _).symm
  | cons op ops ih =>
    rw [List.foldl_cons, ih, toMatrix_apply, ← Matrix.mul_assoc]
    simp [product]

theorem isUnit_product {ops : List (RowOperation m α)} (h : ∀ op ∈ ops, op.divisor ≠ 0) :
    IsUnit (product ops) := by
  refine List.prod_isUnit fun x hx => ?_
  obtain ⟨op, hop, rfl⟩ := List.mem_map.1 (List.mem_reverse.1 hx)
  exact isUnit_matrix (h op hop)

end RowOperation

/-! ## §3 Sweeps -/

namespace Sweep

variable {α : Type u} [Scalar α] {m n : Nat}

variable {step : Grid m n α → Pivot m n → Grid m n α}

theorem run_of_stop {row col : Nat} {a : Grid m n α}
    (h : ∀ hrow : row < m, a.findPivot? ⟨row, hrow⟩ col = none) : run step row col a = ⟨[], a⟩ := by
  rw [run]
  split
  next hrow => rw [h hrow]
  next => rfl

theorem run_of_pivot {row col : Nat} {a : Grid m n α} {p : Pivot m n} (hrow : row < m)
    (h : a.findPivot? ⟨row, hrow⟩ col = some p) :
    run step row col a =
      ⟨⟨a, p⟩ :: (run step (row + 1) (p.column + 1) (step a p)).stages,
        (run step (row + 1) (p.column + 1) (step a p)).final⟩ := by
  rw [run, dif_pos hrow, h]

/-- What holds where a sweep stops, and where it goes on if it holds after the step, holds
everywhere. -/
theorem run_induction {motive : Nat → Nat → Grid m n α → Prop}
    (stop : ∀ row col a, (∀ h : row < m, a.findPivot? ⟨row, h⟩ col = none) → motive row col a)
    (next : ∀ row col a p (h : row < m), a.findPivot? ⟨row, h⟩ col = some p →
      motive (row + 1) (p.column + 1) (step a p) → motive row col a)
    (row col : Nat) (a : Grid m n α) : motive row col a := by
  induction hk : m - row generalizing row col a with
  | zero => exact stop row col a fun h => absurd h (by omega)
  | succ k ih =>
    have hrow : row < m := by omega
    cases hp : a.findPivot? ⟨row, hrow⟩ col with
    | none => exact stop row col a fun _ => hp
    | some p => exact next row col a p hrow hp (ih _ _ _ (by omega))

/-- What holds of a sweep that stops, and of one that goes on if it holds of the rest, holds of
every sweep. -/
theorem run_rec {motive : Nat → Nat → Grid m n α → Sweep m n α → Prop}
    (stop : ∀ row col a, (∀ h : row < m, a.findPivot? ⟨row, h⟩ col = none) →
      motive row col a ⟨[], a⟩)
    (next : ∀ row col a p rest (h : row < m), a.findPivot? ⟨row, h⟩ col = some p →
      motive (row + 1) (p.column + 1) (step a p) rest →
      motive row col a ⟨⟨a, p⟩ :: rest.stages, rest.final⟩)
    (row col : Nat) (a : Grid m n α) : motive row col a (run step row col a) := by
  induction row, col, a using @run_induction α _ m n step with
  | stop row col a hstop =>
    rw [run_of_stop hstop]
    exact stop row col a hstop
  | next row col a p hrow hp ih =>
    rw [run_of_pivot hrow hp]
    exact next row col a p _ hrow hp ih

end Sweep

theorem Grid.findPivot?_ne_zero {α : Type u} [Field α] [DecidableEq α] {m n : Nat} {a : Grid m n α}
    {p : Pivot m n} {row : Fin m} {col : Nat} (h : a.findPivot? row col = some p) :
    a.entry p.source p.column ≠ 0 :=
  beq_eq_false_iff_ne.1 (findPivot?_eq_some h).2.2.2.1

namespace Sweep

variable {α : Type u} [Field α] [DecidableEq α] {m n : Nat}

theorem entry_pivot_ne_zero {step : Grid m n α → Pivot m n → Grid m n α} (row col : Nat)
    (a : Grid m n α) :
    ∀ st ∈ (run step row col a).stages, st.before.entry st.pivot.source st.pivot.column ≠ 0 := by
  refine run_rec (motive := fun _ _ _ s => ∀ st ∈ s.stages,
    st.before.entry st.pivot.source st.pivot.column ≠ 0) ?_ ?_ row col a
  · exact fun _ _ _ _ st hst => nomatch hst
  · intro row col a p rest h hp ih st hst
    rcases List.mem_cons.1 hst with rfl | hst
    · exact Grid.findPivot?_ne_zero hp
    · exact ih st hst

/-- A sweep whose steps are row operations carries them out in order. -/
theorem final_run {step : Grid m n α → Pivot m n → Grid m n α}
    {op : Grid m n α → Pivot m n → RowOperation m α}
    (h : ∀ a row col p, a.findPivot? row col = some p → step a p = (op a p).apply a)
    (row col : Nat) (a : Grid m n α) :
    (run step row col a).final =
      ((run step row col a).stages.map fun st => op st.before st.pivot).foldl
        (fun b o => o.apply b) a := by
  refine run_rec (motive := fun _ _ a s => s.final =
    (s.stages.map fun st => op st.before st.pivot).foldl (fun b o => o.apply b) a) ?_ ?_ row col a
  · exact fun _ _ _ _ => rfl
  · intro row col a p rest hrow hp ih
    rw [h a _ _ p hp] at ih
    exact ih

end Sweep

/-! ## §4 The sweep to the reduced form -/

namespace Grid

variable {α : Type u} {m n : Nat}

theorem divisor_ofPivot (a : Grid m n α) (p : Pivot m n) :
    (RowOperation.ofPivot a p).divisor = a.entry p.source p.column := by
  simp only [RowOperation.ofPivot, entry_swapRows_eq, Equiv.swap_apply_left]

variable [Field α] [DecidableEq α]

def reducingOperations (a : Grid m n α) : List (RowOperation m α) :=
  a.reducedSweep.stages.map fun st => RowOperation.ofPivot st.before st.pivot

/-- The shadow of the sweep is the matrix that it multiplies by. -/
theorem toMatrix_shadow (a : Grid m n α) :
    a.shadow.toMatrix = RowOperation.product a.reducingOperations := by
  have hfold : a.shadow =
      a.reducingOperations.foldl (fun b op => op.apply b) (identity m) := by
    rw [reducingOperations, List.foldl_map]
    rfl
  rw [hfold, RowOperation.toMatrix_foldl, toMatrix_identity, Matrix.mul_one]

theorem toMatrix_reducedSweep (a : Grid m n α) :
    a.reducedSweep.final.toMatrix = a.shadow.toMatrix * a.toMatrix := by
  rw [toMatrix_shadow, ← RowOperation.toMatrix_foldl]
  exact congrArg toMatrix (Sweep.final_run (fun _ _ _ _ _ => rfl) 0 0 a)

/-- What the sweep multiplies by can be undone. -/
theorem isUnit_shadow (a : Grid m n α) : IsUnit a.shadow.toMatrix := by
  rw [toMatrix_shadow]
  refine RowOperation.isUnit_product fun op hop => ?_
  obtain ⟨st, hst, rfl⟩ := List.mem_map.1 hop
  rw [divisor_ofPivot]
  exact Sweep.entry_pivot_ne_zero 0 0 a st hst

end Grid

/-! ## §5 The sweep to the echelon form -/

namespace RowOperation

variable {α : Type u} [Scalar α] {m n : Nat}

/-- The operation that clears a pivot's column below the pivot and leaves the pivot itself. -/
def belowPivot (a : Grid m n α) (p : Pivot m n) : RowOperation m α :=
  let moved := a.swapRows p.target p.source
  { source := p.source
    target := p.target
    divisor := 1
    factor := fun i =>
      if p.target < i then moved.entry i p.column / moved.entry p.target p.column else 0 }

end RowOperation

namespace Grid

variable {α : Type u} [Field α] [DecidableEq α] {m n : Nat}

/-- Without rounding, setting the remainder of the pivot's column to zero changes nothing. -/
theorem clearBelow_eq {a : Grid m n α} {p : Pivot m n} (h : a.entry p.source p.column ≠ 0) :
    a.clearBelow p = (RowOperation.belowPivot a p).apply a := by
  refine ext_entry fun i j => ?_
  have hlead (j : Fin n) :
      (a.swapRows p.target p.source).entry p.target j = a.entry p.source j := by
    rw [entry_swapRows_eq, Equiv.swap_apply_left]
  rw [entry_clearBelow, RowOperation.entry_apply]
  simp only [RowOperation.belowPivot, RowOperation.reduceEntry_eq, hlead, div_one]
  by_cases hi : p.target < i
  · rw [if_pos hi, if_pos hi, if_neg hi.ne']
    split
    next hj => rw [hj.1, div_mul_cancel₀ _ h, sub_self]
    next => rfl
  · rw [if_neg hi, if_neg hi, zero_mul, sub_zero]
    split
    next htarget => rw [htarget, hlead]
    next => rfl

def clearingOperations (a : Grid m n α) : List (RowOperation m α) :=
  a.echelonSweep.stages.map fun st => RowOperation.belowPivot st.before st.pivot

/-- The sweep to the echelon form multiplies from the left, too. -/
theorem toMatrix_echelonSweep (a : Grid m n α) :
    ∃ x : Matrix (Fin m) (Fin m) α, IsUnit x ∧
      a.echelonSweep.final.toMatrix = x * a.toMatrix := by
  have hfinal : a.echelonSweep.final = a.clearingOperations.foldl (fun b op => op.apply b) a :=
    Sweep.final_run (fun _ _ _ _ hp => clearBelow_eq (findPivot?_ne_zero hp)) 0 0 a
  refine ⟨_, RowOperation.isUnit_product fun op hop => ?_,
    (congrArg toMatrix hfinal).trans (RowOperation.toMatrix_foldl _ a)⟩
  obtain ⟨st, -, rfl⟩ := List.mem_map.1 hop
  exact one_ne_zero

end Grid

end MatrixCalc
