import Mathlib.Data.Rat.Defs
import MatrixCalc.Proofs.Algebra.Reduced

/-!
# The reduced form is canonical

Two matrices in reduced row echelon form of which each is a multiple of the other are equal
(`Reduction.eq_of_multiples`), whichever way they were reached: first they lead in the same places,
then the leading entries of a row give its coefficients. So two matrices have the same reduced form
exactly if one is a multiple of the other by an invertible matrix (`reducedEchelon_eq_iff`), and
what changes rows in a way that can be undone does not change the reduced form.
-/

namespace MatrixCalc

universe u

/-! ## §1 Multiples of a matrix in reduced form -/

namespace Reduction

variable {α : Type u} [Field α] {m n : Nat} {x y : Matrix (Fin m) (Fin n) α}

/-- A combination of the rows has the coefficient of a row where that row leads. -/
theorem vecMul_leading (hx : x.IsReducedRowEchelon) {i : Fin m} {c : Fin n}
    (hc : x.IsLeadingEntry i c) (v : Fin m → α) : Matrix.vecMul v x c = v i := by
  rw [Matrix.vecMul, dotProduct, Finset.sum_eq_single i]
  · rw [hx.eq_one hc, mul_one]
  · intro k _ hk
    rw [hx.eq_zero_of_ne_of_isLeadingEntry hk hc, mul_zero]
  · exact fun hi => absurd (Finset.mem_univ i) hi

/-- Where a combination of the rows leads, one of the rows does. -/
theorem exists_leading_of_vecMul (hx : x.IsReducedRowEchelon) {v : Fin m → α} {c : Fin n}
    (hleft : ∀ j < c, Matrix.vecMul v x j = 0) (hc : Matrix.vecMul v x c ≠ 0) :
    ∃ i, x.IsLeadingEntry i c := by
  rw [Matrix.vecMul, dotProduct] at hc
  obtain ⟨i, -, hi⟩ := Finset.exists_ne_zero_of_sum_ne_zero hc
  obtain ⟨hv, hic⟩ := ne_zero_and_ne_zero_of_mul hi
  have hrow : x i ≠ 0 := fun h => hic (congrFun h c)
  obtain ⟨d, hd⟩ := Matrix.row_ne_zero_iff_exists_isLeadingEntry.1 hrow
  rcases lt_trichotomy d c with hdc | rfl | hdc
  · exact absurd ((vecMul_leading hx hd v).symm.trans (hleft d hdc)) hv
  · exact ⟨i, hd⟩
  · exact absurd (hd.1 c hdc) hic

/-- Rows further down lead further right. -/
theorem lt_of_leading (hx : x.IsRowEchelon) {i k : Fin m} {c d : Fin n} (hik : i < k)
    (hc : x.IsLeadingEntry i c) (hd : x.IsLeadingEntry k d) : c < d := by
  by_contra hdc
  exact hd.2 (hx hik fun j hj => hc.1 j (hj.trans_le (not_lt.1 hdc)))

/-- If the rows above lead in the same places in two matrices that lead in the same columns, so does
the next row. -/
theorem leading_of_above (hx : x.IsRowEchelon) (hy : y.IsRowEchelon)
    (hxy : ∀ i c, x.IsLeadingEntry i c → ∃ k, y.IsLeadingEntry k c)
    (hyx : ∀ i c, y.IsLeadingEntry i c → ∃ k, x.IsLeadingEntry k c) {i : Fin m}
    (habove : ∀ k < i, ∀ c, x.IsLeadingEntry k c ↔ y.IsLeadingEntry k c) {c : Fin n}
    (hc : x.IsLeadingEntry i c) : y.IsLeadingEntry i c := by
  obtain ⟨k, hk⟩ := hxy i c hc
  rcases lt_trichotomy k i with hki | rfl | hik
  · exact absurd (lt_of_leading hx hki ((habove k hki c).2 hk) hc) (lt_irrefl c)
  · exact hk
  -- otherwise row `i` of `y` leads further left, where no row of `x` can
  exfalso
  have hrow : y i ≠ 0 := fun h => hk.row_ne_zero (hy.row_eq_zero_of_lt hik h)
  obtain ⟨d, hd⟩ := Matrix.row_ne_zero_iff_exists_isLeadingEntry.1 hrow
  have hdc : d < c := lt_of_leading hy hik hd hk
  obtain ⟨l, hl⟩ := hyx i d hd
  rcases lt_trichotomy l i with hli | rfl | hil
  · exact absurd (lt_of_leading hy hli ((habove l hli d).1 hl) hd) (lt_irrefl d)
  · exact hdc.ne (hl.unique hc)
  · exact absurd (lt_of_leading hx hil hc hl) hdc.asymm

/-- Two matrices in echelon form that lead in the same columns lead there in the same rows. -/
theorem leading_iff (hx : x.IsRowEchelon) (hy : y.IsRowEchelon)
    (hxy : ∀ i c, x.IsLeadingEntry i c → ∃ k, y.IsLeadingEntry k c)
    (hyx : ∀ i c, y.IsLeadingEntry i c → ∃ k, x.IsLeadingEntry k c) (i : Fin m) :
    ∀ c, x.IsLeadingEntry i c ↔ y.IsLeadingEntry i c := by
  induction i using WellFoundedLT.induction with
  | ind i ih =>
    exact fun c => ⟨leading_of_above hx hy hxy hyx ih,
      leading_of_above hy hx hyx hxy fun k hk d => (ih k hk d).symm⟩

/-- The reduced form is unique: two matrices in that form are equal if each is a multiple of the
other. -/
theorem eq_of_multiples {r s : Matrix (Fin m) (Fin m) α} (hx : x.IsReducedRowEchelon)
    (hy : y.IsReducedRowEchelon) (hyx : y = r * x) (hxy : x = s * y) : y = x := by
  have hleads {x y : Matrix (Fin m) (Fin n) α} {r : Matrix (Fin m) (Fin m) α}
      (hx : x.IsReducedRowEchelon) (h : y = r * x) (i : Fin m) (c : Fin n)
      (hc : y.IsLeadingEntry i c) : ∃ k, x.IsLeadingEntry k c := by
    have hrow : y i = Matrix.vecMul (r i) x := by rw [h, Matrix.mul_apply_eq_vecMul]
    obtain ⟨hleft, hne⟩ := hc
    rw [hrow] at hleft hne
    exact exists_leading_of_vecMul hx hleft hne
  have hsame := leading_iff hx.isRowEchelon hy.isRowEchelon (hleads hy hxy) (hleads hx hyx)
  -- the coefficients of row `i` are read off where the rows lead
  have hcoefficient (i k : Fin m) (hk : x k ≠ 0) : r i k = if k = i then 1 else 0 := by
    obtain ⟨c, hc⟩ := Matrix.row_ne_zero_iff_exists_isLeadingEntry.1 hk
    have hentry : y i c = r i k := by
      rw [hyx, Matrix.mul_apply_eq_vecMul, vecMul_leading hx hc]
    have hcy := (hsame k c).1 hc
    rw [← hentry]
    split
    next hki => rw [← hki, hy.eq_one hcy]
    next hki => exact hy.eq_zero_of_ne_of_isLeadingEntry (Ne.symm hki) hcy
  ext i j
  rw [hyx, Matrix.mul_apply, Finset.sum_eq_single i]
  · by_cases hi : x i = 0
    · rw [hi, Pi.zero_apply, mul_zero]
    · rw [hcoefficient i i hi, if_pos rfl, one_mul]
  · intro k _ hki
    by_cases hk : x k = 0
    · rw [hk, Pi.zero_apply, mul_zero]
    · rw [hcoefficient i k hk, if_neg hki, zero_mul]
  · exact fun hi => absurd (Finset.mem_univ i) hi

end Reduction

/-! ## §2 Grids that are multiples of each other -/

namespace Grid

variable {α : Type u} [Field α] [DecidableEq α] {m n : Nat} {a b c : Grid m n α}

/-- The second grid is a multiple of the first by a matrix that can be inverted. -/
def RowEquivalent (a b : Grid m n α) : Prop :=
  ∃ x : Matrix (Fin m) (Fin m) α, IsUnit x ∧ b.toMatrix = x * a.toMatrix

theorem RowEquivalent.symm (h : RowEquivalent a b) : RowEquivalent b a := by
  obtain ⟨x, hx, hb⟩ := h
  obtain ⟨y, hyx⟩ := hx.exists_left_inv
  refine ⟨y, IsUnit.of_mul_eq_one _ hyx, ?_⟩
  rw [hb, ← Matrix.mul_assoc, hyx, Matrix.one_mul]

theorem RowEquivalent.trans (h : RowEquivalent a b) (h' : RowEquivalent b c) :
    RowEquivalent a c := by
  obtain ⟨x, hx, hb⟩ := h
  obtain ⟨y, hy, hc⟩ := h'
  exact ⟨y * x, hy.mul hx, by rw [hc, hb, Matrix.mul_assoc]⟩

theorem rowEquivalent_echelonSweep (a : Grid m n α) : RowEquivalent a a.echelonSweep.final :=
  a.toMatrix_echelonSweep

theorem rowEquivalent_reducedSweep (a : Grid m n α) : RowEquivalent a a.reducedSweep.final :=
  ⟨a.shadow.toMatrix, a.isUnit_shadow, a.toMatrix_reducedSweep⟩

/-- A row operation that can be undone gives an equivalent grid. -/
theorem rowEquivalent_apply {op : RowOperation m α} (h : op.divisor ≠ 0) (a : Grid m n α) :
    RowEquivalent a (op.apply a) :=
  ⟨op.matrix, RowOperation.isUnit_matrix h, op.toMatrix_apply a⟩

/-- The sweeps of two grids end in the same grid exactly if the grids are equivalent. -/
theorem reducedSweep_eq_iff :
    a.reducedSweep.final = b.reducedSweep.final ↔ RowEquivalent a b := by
  constructor
  · intro h
    refine a.rowEquivalent_reducedSweep.trans ?_
    rw [h]
    exact b.rowEquivalent_reducedSweep.symm
  · intro h
    have hab : RowEquivalent a.reducedSweep.final b.reducedSweep.final :=
      (a.rowEquivalent_reducedSweep.symm.trans h).trans b.rowEquivalent_reducedSweep
    obtain ⟨y, -, hy⟩ := hab.symm
    obtain ⟨x, -, hx⟩ := hab
    exact (toMatrix_inj.1 (Reduction.eq_of_multiples a.isReducedRowEchelon_reducedSweep
      b.isReducedRowEchelon_reducedSweep hx hy)).symm

/-! ### Elementary operations -/

def scaleRow (a : Grid m n α) (r : Fin m) (x : α) : Grid m n α :=
  ofFn fun i j => if i = r then x * a.entry i j else a.entry i j

def addRow (a : Grid m n α) (r s : Fin m) (x : α) : Grid m n α :=
  ofFn fun i j => if i = r then a.entry i j + x * a.entry s j else a.entry i j

theorem rowEquivalent_swapRows (a : Grid m n α) (r s : Fin m) :
    RowEquivalent a (a.swapRows r s) := by
  have h : a.swapRows r s = (⟨s, r, 1, fun _ => 0⟩ : RowOperation m α).apply a := by
    refine ext_entry fun i j => ?_
    rw [RowOperation.entry_apply_eq, entry_swapRows_eq]
    by_cases hi : i = r
    · simp [hi]
    · simp [hi]
  rw [h]
  exact rowEquivalent_apply one_ne_zero a

theorem rowEquivalent_scaleRow (a : Grid m n α) (r : Fin m) {x : α} (hx : x ≠ 0) :
    RowEquivalent a (a.scaleRow r x) := by
  have h : a.scaleRow r x = (⟨r, r, x⁻¹, fun _ => 0⟩ : RowOperation m α).apply a := by
    refine ext_entry fun i j => ?_
    rw [RowOperation.entry_apply_eq, scaleRow, entry_ofFn]
    by_cases hi : i = r
    · simp [hi, mul_comm]
    · simp [hi]
  rw [h]
  exact rowEquivalent_apply (inv_ne_zero hx) a

theorem rowEquivalent_addRow (a : Grid m n α) {r s : Fin m} (hrs : r ≠ s) (x : α) :
    RowEquivalent a (a.addRow r s x) := by
  have h : a.addRow r s x =
      (⟨s, s, 1, fun i => if i = r then -x else 0⟩ : RowOperation m α).apply a := by
    refine ext_entry fun i j => ?_
    rw [RowOperation.entry_apply_eq, addRow, entry_ofFn]
    by_cases hi : i = r
    · simp [hi, hrs]
    · by_cases hs : i = s <;> simp [hi, hs, hrs.symm]
  rw [h]
  exact rowEquivalent_apply one_ne_zero a

end Grid

/-! ## §3 The reduced form of a matrix -/

namespace DenseMatrix

variable {α : Type u} [Field α] [DecidableEq α]

theorem beq_iff {a b : DenseMatrix α} : (a == b) = true ↔ a = b := by
  obtain ⟨s, values⟩ := a
  obtain ⟨t, values'⟩ := b
  show (s == t && values == values') = true ↔ _
  rw [Bool.and_eq_true, beq_iff_eq, beq_iff_eq, mk.injEq]

theorem reducedEchelon_ofGrid {m n : Nat} (g : Grid m n α) :
    (ofGrid g).reducedEchelon = ofGrid g.reducedSweep.final :=
  congrArg (fun x : Grid m n α => ofGrid x.reducedSweep.final) (grid_ofGrid g)

/-- What grids equivalent to each other are, in terms of matrices. -/
theorem rowEquivalent_iff {m n : Nat} {g h : Grid m n α} (hm : 0 < m) :
    g.RowEquivalent h ↔
      ∃ p : DenseMatrix α, p.IsInvertible ∧ p.mul (ofGrid g) = .ok (ofGrid h) := by
  constructor
  · rintro ⟨x, hx, hh⟩
    obtain ⟨p, rfl⟩ := Grid.exists_toMatrix_eq x
    refine ⟨ofGrid p, (isInvertible_ofGrid hm).2 hx,
      (mul_eq_ok_ofGrid_iff (m := m) (k := m) rfl rfl).2 ?_⟩
    rw [view_ofGrid, view_ofGrid, ← Grid.toMatrix_inj, Grid.toMatrix_mul, hh]
  · rintro ⟨p, hp, hmul⟩
    obtain ⟨hsquare, hunit⟩ := (isInvertible_iff hp.1).1 hp
    have hm' : p.rows = m := (congrArg Shape.cols hsquare).symm.trans (mul_eq_ok_iff.1 hmul).1
    subst hm'
    rw [mul_eq_ok_ofGrid_iff (b := ofGrid g) hsquare rfl, view_ofGrid, ← Grid.toMatrix_inj,
      Grid.toMatrix_mul]
      at hmul
    exact ⟨_, hunit, hmul.symm⟩

/-- The reduced form is a canonical form: two matrices of one shape have the same exactly if one is
the other multiplied by an invertible matrix. The echelon form and the reduced form themselves have
it, and exchanging rows, scaling a row or adding a multiple of one to another does not change it. -/
theorem reducedEchelon_canonical (a b : DenseMatrix α) (ha : a.WellFormed) (hb : b.WellFormed)
    (hshape : a.toShape = b.toShape) :
    ((a.reducedEchelon == b.reducedEchelon) = true ↔
        ∃ p : DenseMatrix α, p.IsInvertible ∧ p.mul a = .ok b) ∧
      a.echelon.reducedEchelon = a.reducedEchelon ∧
      a.reducedEchelon.reducedEchelon = a.reducedEchelon ∧
      (∀ r s, (ofGrid (a.grid.swapRows r s)).reducedEchelon = a.reducedEchelon) ∧
      (∀ r x, x ≠ 0 → (ofGrid (a.grid.scaleRow r x)).reducedEchelon = a.reducedEchelon) ∧
      ∀ r s x, r ≠ s → (ofGrid (a.grid.addRow r s x)).reducedEchelon = a.reducedEchelon := by
  have hsame {g : Grid a.rows a.cols α} (h : a.grid.RowEquivalent g) :
      (ofGrid g).reducedEchelon = a.reducedEchelon := by
    rw [reducedEchelon_ofGrid, ← Grid.reducedSweep_eq_iff.2 h, reducedEchelon]
  refine ⟨?_, hsame a.grid.rowEquivalent_echelonSweep, hsame a.grid.rowEquivalent_reducedSweep,
    fun r s => hsame (a.grid.rowEquivalent_swapRows r s),
    fun r x hx => hsame (a.grid.rowEquivalent_scaleRow r hx),
    fun r s x hrs => hsame (a.grid.rowEquivalent_addRow hrs x)⟩
  -- both matrices are grids of one size
  obtain ⟨m, n, g, rfl, hm⟩ : ∃ m n, ∃ g : Grid m n α, ofGrid g = a ∧ 0 < m :=
    ⟨_, _, a.grid, ofGrid_grid ha, ha.rows_pos⟩
  obtain ⟨h, rfl⟩ : ∃ h : Grid m n α, ofGrid h = b :=
    ⟨b.view m n, ofGrid_view hb (congrArg Shape.rows hshape.symm) (congrArg Shape.cols hshape.symm)⟩
  rw [beq_iff, reducedEchelon_ofGrid, reducedEchelon_ofGrid, ofGrid_inj, Grid.reducedSweep_eq_iff,
    rowEquivalent_iff hm]

/-- Two matrices of rationals with the same reduced form, although the pivots of their sweeps stand
in different rows, and one with another. -/
theorem reducedEchelon_canonical_rationals :
    (∃ p : DenseMatrix ℚ, p.IsInvertible ∧
      p.mul (ofGrid #v[#v[0, 2, 1], #v[1, 1, 3]]) = .ok (ofGrid #v[#v[2, 4, 7], #v[1, 3, 4]])) ∧
    ¬ ∃ p : DenseMatrix ℚ, p.IsInvertible ∧
      p.mul (ofGrid #v[#v[0, 2, 1], #v[1, 1, 3]]) = .ok (ofGrid #v[#v[2, 4, 7], #v[1, 3, 5]]) := by
  have hsame (g h : Grid 2 3 ℚ) :
      ((ofGrid g).reducedEchelon == (ofGrid h).reducedEchelon) = true ↔
        ∃ p : DenseMatrix ℚ, p.IsInvertible ∧ p.mul (ofGrid g) = .ok (ofGrid h) :=
    (reducedEchelon_canonical (ofGrid g) (ofGrid h)
      (wellFormed_ofGrid g Nat.two_pos (Nat.succ_pos 2))
      (wellFormed_ofGrid h Nat.two_pos (Nat.succ_pos 2)) rfl).1
  exact ⟨(hsame _ _).1 (by decide +kernel), (hsame _ _).not.1 (by decide +kernel)⟩

end DenseMatrix

end MatrixCalc
