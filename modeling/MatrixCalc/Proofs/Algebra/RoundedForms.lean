import MatrixCalc.Proofs.Algebra.Echelon
import MatrixCalc.Proofs.Decimal.Underflow

/-!
# The two forms of a matrix of doubles

Without overflow the reduced form of a matrix of doubles is in reduced row echelon form, and it is
its own reduced form, to the bit (`DenseMatrix.reducedEchelon_idempotent`).

Of the other form this does not hold. Its sweep clears an entry only if the quotient by the pivot is
not zero, and the quotient of two doubles can be rounded to zero: the entry then stays. So the form
is in row echelon form exactly if no entry other than zero is that much smaller than the pivot above
it (`DenseMatrix.echelon_isEchelon_iff`).

§1 entries and conditions · §2 the reduced form · §3 the echelon form
-/

namespace MatrixCalc

universe u

open Scalar (HasFinite ExactUnits)

/-! ## §1 Entries and conditions -/

instance (x : Float) : Decidable (HasFinite.IsFinite x) :=
  inferInstanceAs (Decidable (x.isFinite = true))

section Decidable

variable {α : Type u} [HasFinite α] [∀ x : α, Decidable (HasFinite.IsFinite x)] {m n : Nat}

instance (a : Grid m n α) : Decidable a.IsFinite :=
  inferInstanceAs (Decidable (∀ i j, HasFinite.IsFinite (a.entry i j)))

instance (step : Grid m n α → Pivot m n → Grid m n α) (s : Sweep m n α) :
    Decidable (s.StaysFinite step) :=
  inferInstanceAs (Decidable (∀ st ∈ s.stages, (step st.before st.pivot).IsFinite))

end Decidable

instance {α : Type u} [Scalar α] {m n : Nat} (a : Grid m n α) (row : Nat) (j : Fin n) :
    Decidable (a.ZeroBelow row j) :=
  inferInstanceAs (Decidable (∀ i : Fin m, row ≤ i.val → Scalar.isZero (a.entry i j) = true))

theorem Grid.exists_entry_of_mem {α : Type u} {m n : Nat} {a : Grid m n α} {x : α}
    (hx : x ∈ a.entries) : ∃ i j, a.entry i j = x := by
  obtain ⟨row, hrow, hx⟩ := Vector.mem_flatten.1 ((Vector.mem_toArray_iff x _).1 hx)
  obtain ⟨i, hi, rfl⟩ := Vector.getElem_of_mem hrow
  obtain ⟨j, hj, rfl⟩ := Vector.getElem_of_mem hx
  exact ⟨⟨i, hi⟩, ⟨j, hj⟩, rfl⟩

/-! ## §2 The reduced form -/

namespace DenseMatrix

/-- Reduced row echelon form. -/
def IsReducedEchelon {α : Type u} [Scalar α] (a : DenseMatrix α) : Prop := a.grid.IsReducedEchelon

section ExactUnits

variable {α : Type u} [Scalar α] [HasFinite α] [ExactUnits α]

theorem beq_self_of_isFinite {m n : Nat} {g : Grid m n α} (h : g.IsFinite) :
    (ofGrid g == ofGrid g) = true := by
  show ((⟨m, n⟩ : Shape) == ⟨m, n⟩ && g.entries == g.entries) = true
  rw [BEq.rfl, Bool.true_and]
  refine Array.isEqv_iff_rel.2 ⟨rfl, fun k hk => ?_⟩
  obtain ⟨i, j, hentry⟩ := Grid.exists_entry_of_mem (Array.getElem_mem hk)
  rw [← hentry]
  exact ExactUnits.beq_self (h i j)

variable {a : DenseMatrix α}

theorem isReducedEchelon_reducedEchelon (hentries : a.grid.IsFinite)
    (hfinite : a.grid.reducedSweep.StaysFinite Grid.reduceStep) :
    a.reducedEchelon.IsReducedEchelon := by
  rw [IsReducedEchelon, reducedEchelon, grid_ofGrid]
  exact Grid.isReducedEchelon_final 0 0 a.grid hentries hfinite a.grid.reducedUpTo_zero

theorem reducedEchelon_reducedEchelon (hentries : a.grid.IsFinite)
    (hfinite : a.grid.reducedSweep.StaysFinite Grid.reduceStep) :
    a.reducedEchelon.reducedEchelon = a.reducedEchelon := by
  have hform := Grid.isReducedEchelon_final 0 0 a.grid hentries hfinite a.grid.reducedUpTo_zero
  have hfinal := Grid.isFinite_final 0 0 a.grid hentries hfinite
  have hagain := Grid.final_of_isReducedEchelon 0 0 _ hfinal hform (Grid.echelonUpTo_zero _)
  rw [reducedEchelon, reducedEchelon, grid_ofGrid]
  exact congrArg ofGrid hagain

end ExactUnits

/-- The reduced form of a matrix of doubles is in reduced row echelon form, by comparison of its
entries to zero and one, and it is its own reduced form, if no entry becomes infinite or undefined
on the way. -/
theorem reducedEchelon_idempotent (a : DenseMatrix Float) (hentries : a.grid.IsFinite)
    (hfinite : a.grid.reducedSweep.StaysFinite Grid.reduceStep) :
    a.reducedEchelon.IsReducedEchelon ∧ a.reducedEchelon.reducedEchelon = a.reducedEchelon ∧
      (a.reducedEchelon.reducedEchelon == a.reducedEchelon) = true := by
  have hagain := reducedEchelon_reducedEchelon hentries hfinite
  refine ⟨isReducedEchelon_reducedEchelon hentries hfinite, hagain, ?_⟩
  rw [hagain]
  exact beq_self_of_isFinite (Grid.isFinite_final 0 0 a.grid hentries hfinite)

/-- A matrix whose entries are rounded in every step. -/
theorem reducedEchelon_idempotent_rounded :
    let a : DenseMatrix Float := ofGrid #v[#v[3, 0.1, 7, 1], #v[0.7, 0.3, -0.2, 2]]
    a.grid.IsFinite ∧ a.grid.reducedSweep.StaysFinite Grid.reduceStep ∧
      a.reducedEchelon.IsReducedEchelon ∧ a.reducedEchelon.reducedEchelon = a.reducedEchelon ∧
      (a.reducedEchelon.reducedEchelon == a.reducedEchelon) = true := by
  intro a
  have hentries : a.grid.IsFinite := by decide +kernel
  have hfinite : a.grid.reducedSweep.StaysFinite Grid.reduceStep := by decide +kernel
  exact ⟨hentries, hfinite, reducedEchelon_idempotent a hentries hfinite⟩

end DenseMatrix

/-! ## §3 The echelon form -/

/-- Below the pivot, no entry other than zero is as small as half of the smallest double times the
pivot. -/
def Stage.InReach {m n : Nat} (st : Stage m n Float) : Prop :=
  ∀ i, st.pivot.target < i → Scalar.isZero (st.moved.entry i st.pivot.column) = false →
    absValue (st.moved.entry st.pivot.target st.pivot.column) <
      absValue (st.moved.entry i st.pivot.column) * 2 ^ 1075

/-- A step clears what is in reach of its pivot. -/
theorem Stage.clears_iff_inReach {m n : Nat} {st : Stage m n Float} (hfinite : st.before.IsFinite)
    (hlead : Scalar.isZero (st.before.entry st.pivot.source st.pivot.column) = false) :
    st.Clears ↔ st.InReach := by
  refine forall₂_congr fun i _ => ?_
  have hmoved : st.moved.IsFinite := hfinite.moved st.pivot
  have hpivot : Scalar.isZero (st.moved.entry st.pivot.target st.pivot.column) = false := by
    rwa [← Grid.entry_moved_target] at hlead
  rw [Stage.factor, isZero_div_iff (hmoved _ _) (hmoved _ _) hpivot, ← not_lt]
  cases Scalar.isZero (st.moved.entry i st.pivot.column) with
  | true => exact iff_of_true (fun _ => rfl) nofun
  | false => simp only [Bool.false_eq_true, imp_false, not_not, forall_const]

namespace Sweep

variable {α : Type u} [Scalar α] {m n : Nat}

/-- Every grid of a sweep that stays finite is finite, and every pivot is an entry other than
zero. -/
theorem isFinite_before [HasFinite α] {step : Grid m n α → Pivot m n → Grid m n α} (row col : Nat)
    (a : Grid m n α) (ha : a.IsFinite) (hfinite : (run step row col a).StaysFinite step) :
    ∀ st ∈ (run step row col a).stages, st.before.IsFinite ∧
      Scalar.isZero (st.before.entry st.pivot.source st.pivot.column) = false := by
  refine run_rec (motive := fun _ _ a s => a.IsFinite → s.StaysFinite step →
    ∀ st ∈ s.stages, st.before.IsFinite ∧
      Scalar.isZero (st.before.entry st.pivot.source st.pivot.column) = false)
    ?_ ?_ row col a ha hfinite
  · exact fun _ _ _ _ _ _ st hst => nomatch hst
  · intro row col a p rest _ hp ih ha hfinite
    obtain ⟨hstep, htail⟩ := List.forall_mem_cons.1 hfinite
    exact List.forall_mem_cons.2 ⟨⟨ha, (Grid.findPivot?_eq_some hp).2.2.2.1⟩, ih hstep htail⟩

end Sweep

namespace DenseMatrix

theorem isEchelon_ofGrid {α : Type u} [Scalar α] {m n : Nat} {g : Grid m n α} :
    (ofGrid g).IsEchelon ↔ g.IsEchelon :=
  iff_of_eq (congrArg Grid.IsEchelon (grid_ofGrid g))

/-- The echelon form of a matrix of doubles has only zeros below a pivot exactly if what was below
the pivot when it was chosen was in reach of it, and it is in row echelon form exactly if that is so
for all pivots; this provided that no entry becomes infinite or undefined on the way. -/
theorem echelon_isEchelon_iff (a : DenseMatrix Float) (hentries : a.grid.IsFinite)
    (hfinite : a.grid.echelonSweep.StaysFinite Grid.clearBelow) :
    (∀ st ∈ a.grid.echelonSweep.stages,
      ((a.echelon.view a.rows a.cols).ZeroBelow (st.pivot.target + 1) st.pivot.column ↔
        st.InReach)) ∧
    (a.echelon.IsEchelon ↔ ∀ st ∈ a.grid.echelonSweep.stages, st.InReach) := by
  have hclears : ∀ st ∈ a.grid.echelonSweep.stages, (st.Clears ↔ st.InReach) := by
    intro st hst
    obtain ⟨hbefore, hlead⟩ := Sweep.isFinite_before 0 0 a.grid hentries hfinite st hst
    exact Stage.clears_iff_inReach hbefore hlead
  constructor
  · intro st hst
    rw [← hclears st hst, echelon, view_ofGrid]
    exact Grid.zero_below_pivot_iff 0 0 a.grid hfinite st hst
  · rw [echelon, isEchelon_ofGrid, Grid.isEchelon_echelonSweep_iff hfinite]
    exact forall₂_congr hclears

/-- The smallest double is in reach of `1.5`, and is cleared. -/
theorem echelon_isEchelon_iff_smallest :
    let a : DenseMatrix Float := ofGrid #v[#v[1.5, 1], #v[5e-324, 1]]
    a.grid.IsFinite ∧ a.grid.echelonSweep.StaysFinite Grid.clearBelow ∧
      (a.echelon == ofGrid #v[#v[1.5, 1], #v[0, 1]]) = true ∧
      (∀ st ∈ a.grid.echelonSweep.stages,
        ((a.echelon.view a.rows a.cols).ZeroBelow (st.pivot.target + 1) st.pivot.column ↔
          st.InReach)) ∧
      (a.echelon.IsEchelon ↔ ∀ st ∈ a.grid.echelonSweep.stages, st.InReach) := by
  intro a
  have hentries : a.grid.IsFinite := by decide +kernel
  have hfinite : a.grid.echelonSweep.StaysFinite Grid.clearBelow := by decide +kernel
  exact ⟨hentries, hfinite, by decide +kernel, echelon_isEchelon_iff a hentries hfinite⟩

/-- A column whose second entry is `1e-400` times the first: the quotient is zero, and nothing is
cleared. -/
theorem echelon_keeps_small_entry :
    let a : DenseMatrix Float := ofGrid #v[#v[1e200], #v[1e-200]]
    a.WellFormed ∧ a.grid.IsFinite ∧ a.grid.echelonSweep.StaysFinite Grid.clearBelow ∧
      (a.echelon == a) = true ∧
      (∃ st ∈ a.grid.echelonSweep.stages,
        ¬ (a.echelon.view a.rows a.cols).ZeroBelow (st.pivot.target + 1) st.pivot.column) ∧
      ¬ a.echelon.IsEchelon := by
  intro a
  have hform : ¬ a.echelon.IsEchelon := by
    rw [echelon, isEchelon_ofGrid]
    intro hform
    have hbelow := hform.below (0 : Fin 2) (1 : Fin 2) (0 : Fin 1) (by decide)
      ⟨fun j hj => absurd hj (Nat.not_lt_zero _), by decide +kernel⟩
    revert hbelow
    decide +kernel
  exact ⟨wellFormed_ofGrid _ (Nat.succ_pos 1) Nat.one_pos, by decide +kernel, by decide +kernel,
    by decide +kernel, by decide +kernel, hform⟩

end DenseMatrix

end MatrixCalc
