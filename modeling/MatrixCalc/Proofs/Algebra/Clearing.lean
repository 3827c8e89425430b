import MatrixCalc.Proofs.Algebra.Forms

/-!
# The sweep to the echelon form

A step of this sweep sets the entries below its pivot to zero where their quotient by the pivot is
not zero, and leaves them where it is. So the form is reached exactly if at every step the quotients
that are zero are those of zeros (`Grid.isEchelon_echelonSweep_iff`), whichever arithmetic it is.
All that is asked of it is that subtracting a multiple of zero neither makes nor removes a zero
(`Scalar.KeepsZeros`). An entry that is left below a pivot spoils the form for good, since a column
has only zeros from a row on at the end if it had at the beginning (`Grid.zeroBelow_final_iff`).

§1 one step · §2 a whole sweep
-/

namespace MatrixCalc

universe u

namespace Scalar

/-- Where the result is finite, subtracting a multiple of zero neither makes nor removes a zero. -/
class KeepsZeros (α : Type u) [Scalar α] [HasFinite α] : Prop where
  isZero_zero : isZero (0 : α) = true
  isZero_sub_mul : ∀ {x y : α} (factor : α), isZero y = true →
    HasFinite.IsFinite (x - factor * y) → isZero (x - factor * y) = isZero x

end Scalar

open Scalar (KeepsZeros HasFinite)

/-! ## §1 One step -/

namespace Stage

variable {α : Type u} [Scalar α] {m n : Nat}

/-- How often the pivot's row is subtracted from another row. -/
def factor (st : Stage m n α) (i : Fin m) : α :=
  st.moved.entry i st.pivot.column / st.moved.entry st.pivot.target st.pivot.column

/-- Below the pivot, the entries whose quotient by the pivot is zero are zero. -/
def Clears (st : Stage m n α) : Prop :=
  ∀ i, st.pivot.target < i → Scalar.isZero (st.factor i) = true →
    Scalar.isZero (st.moved.entry i st.pivot.column) = true

end Stage

namespace Grid

variable {α : Type u} [Scalar α] {m n : Nat} {a : Grid m n α} {p : Pivot m n}

/-- The rows from one on are that row and those below it. -/
theorem zeroBelow_succ_iff (a : Grid m n α) (r : Fin m) (j : Fin n) :
    a.ZeroBelow r j ↔ Scalar.isZero (a.entry r j) = true ∧ a.ZeroBelow (r + 1) j := by
  refine ⟨fun h => ⟨h r le_rfl, fun i hi => h i (Nat.le_of_succ_le hi)⟩, fun ⟨hr, h⟩ i hi => ?_⟩
  rcases hi.eq_or_lt with hi | hi
  · rwa [← Fin.ext hi]
  · exact h i hi

theorem entry_clearBelow_of_le (a : Grid m n α) {i : Fin m} (hi : i ≤ p.target) (j : Fin n) :
    (a.clearBelow p).entry i j = (⟨a, p⟩ : Stage m n α).moved.entry i j := by
  rw [entry_clearBelow, if_neg (not_lt.2 hi)]
  rfl

/-- The rows above the current one are left as they are. -/
theorem entry_clearBelow_of_lt (a : Grid m n α) {i : Fin m} (hi : i < p.target)
    (hsource : p.target ≤ p.source) (j : Fin n) : (a.clearBelow p).entry i j = a.entry i j := by
  rw [entry_clearBelow_of_le a hi.le, Stage.moved, entry_swapRows, if_neg hi.ne,
    if_neg (hi.trans_le hsource).ne]

/-- The pivot's row is moved and not changed. -/
theorem entry_clearBelow_target (a : Grid m n α) (p : Pivot m n) (j : Fin n) :
    (a.clearBelow p).entry p.target j = a.entry p.source j := by
  rw [entry_clearBelow_of_le a le_rfl, entry_moved_target]

variable [HasFinite α] [KeepsZeros α]

/-- In the pivot's column an entry is cleared if its quotient is not zero. -/
theorem isZero_clearBelow_column (a : Grid m n α) {i : Fin m} (hi : p.target < i) :
    Scalar.isZero ((a.clearBelow p).entry i p.column) = true ↔
      (Scalar.isZero ((⟨a, p⟩ : Stage m n α).factor i) = true →
        Scalar.isZero ((⟨a, p⟩ : Stage m n α).moved.entry i p.column) = true) := by
  have hentry : (a.clearBelow p).entry i p.column =
      if Scalar.isZero ((⟨a, p⟩ : Stage m n α).factor i) = false then 0
      else Grid.reduceEntry ((⟨a, p⟩ : Stage m n α).factor i)
        ((⟨a, p⟩ : Stage m n α).moved.entry p.target p.column)
        ((⟨a, p⟩ : Stage m n α).moved.entry i p.column) := by
    rw [entry_clearBelow, if_pos hi]
    simp only [true_and]
    rfl
  rw [hentry]
  cases hfactor : Scalar.isZero ((⟨a, p⟩ : Stage m n α).factor i) with
  | false => exact iff_of_true (KeepsZeros.isZero_zero) nofun
  | true => simp only [reduceEntry, hfactor, if_true, reduceCtorEq, if_false, forall_const]

/-- In a column in which the pivot's row is zero, a step neither makes nor removes a zero. -/
theorem isZero_clearBelow (hlead : Scalar.isZero (a.entry p.source p.column) = false)
    (hfinite : (a.clearBelow p).IsFinite) {j : Fin n}
    (hzero : Scalar.isZero (a.entry p.source j) = true) (i : Fin m) :
    Scalar.isZero ((a.clearBelow p).entry i j) =
      Scalar.isZero ((⟨a, p⟩ : Stage m n α).moved.entry i j) := by
  by_cases hi : p.target < i
  · have hj : j ≠ p.column := fun hj => Bool.eq_false_iff.1 hlead (hj ▸ hzero)
    have hentry : (a.clearBelow p).entry i j =
        reduceEntry ((⟨a, p⟩ : Stage m n α).factor i) (a.entry p.source j)
          ((⟨a, p⟩ : Stage m n α).moved.entry i j) := by
      rw [entry_clearBelow, if_pos hi, if_neg fun h => hj h.1, ← entry_moved_target a p j]
      rfl
    have hresult := hfinite i j
    rw [hentry] at hresult ⊢
    unfold reduceEntry at hresult ⊢
    split
    · rfl
    next hfactor =>
      rw [if_neg hfactor] at hresult
      exact KeepsZeros.isZero_sub_mul _ hzero hresult
  · rw [entry_clearBelow_of_le a (not_lt.1 hi)]

/-- A column has only zeros from the current row on after a step exactly if it had before. -/
theorem zeroBelow_clearBelow_iff (hsource : p.target ≤ p.source)
    (hlead : Scalar.isZero (a.entry p.source p.column) = false)
    (hfinite : (a.clearBelow p).IsFinite) (j : Fin n) :
    (a.clearBelow p).ZeroBelow p.target j ↔ a.ZeroBelow p.target j := by
  cases hzero : Scalar.isZero (a.entry p.source j) with
  | false =>
    -- the pivot's row is not zero there, neither before nor after the step
    refine iff_of_false (fun h => ?_) fun h => Bool.eq_false_iff.1 hzero (h p.source hsource)
    have htarget := h p.target le_rfl
    rw [entry_clearBelow_target] at htarget
    exact Bool.eq_false_iff.1 hzero htarget
  | true =>
    refine Iff.trans ?_ (zeroBelow_moved_iff hsource j)
    exact forall₂_congr fun i _ => by rw [isZero_clearBelow hlead hfinite hzero]

/-- The columns left of the pivot have their zeros where they had them. -/
theorem isZero_clearBelow_left {row : Fin m} {col : Nat} (h : a.EchelonUpTo row col)
    (hp : a.findPivot? row col = some p) (hfinite : (a.clearBelow p).IsFinite) (i : Fin m)
    {j : Fin n} (hj : j < p.column) :
    Scalar.isZero ((a.clearBelow p).entry i j) = Scalar.isZero (a.entry i j) := by
  obtain ⟨rfl, hsource, -, hlead, -⟩ := findPivot?_eq_some hp
  have hzero : a.ZeroBelow p.target j := fun k hk => h.zero_left hp k hk j hj
  by_cases hi : i < p.target
  · rw [entry_clearBelow_of_lt a hi hsource]
  · rw [hzero i (not_lt.1 hi)]
    exact (zeroBelow_clearBelow_iff hsource hlead hfinite j).2 hzero i (not_lt.1 hi)

/-- A step that clears what is below its pivot completes one more row. -/
theorem EchelonUpTo.clearBelow {row : Fin m} {col : Nat} (h : a.EchelonUpTo row col)
    (hp : a.findPivot? row col = some p) (hfinite : (a.clearBelow p).IsFinite)
    (hclears : (⟨a, p⟩ : Stage m n α).Clears) :
    (a.clearBelow p).EchelonUpTo (row + 1) (p.column + 1) := by
  obtain ⟨rfl, -, -, hlead, -⟩ := findPivot?_eq_some hp
  refine h.step hp (fun i j hj => isZero_clearBelow_left h hp hfinite i hj) ?_ fun i hi =>
    (isZero_clearBelow_column a hi).2 (hclears i hi)
  rwa [entry_clearBelow_target]

end Grid

/-! ## §2 A whole sweep -/

namespace Grid

variable {α : Type u} [Scalar α] {m n : Nat}

/-- The rows above the current one are finished. -/
theorem entry_final_of_lt (row col : Nat) (a : Grid m n α) :
    ∀ i : Fin m, i.val < row → ∀ j,
      (Sweep.run clearBelow row col a).final.entry i j = a.entry i j := by
  refine Sweep.run_rec (motive := fun row _ a s => ∀ i : Fin m, i.val < row → ∀ j,
    s.final.entry i j = a.entry i j) ?_ ?_ row col a
  · exact fun _ _ _ _ _ _ _ => rfl
  · intro row col a p rest hrow hp ih i hi j
    obtain ⟨htarget, hsource, -⟩ := findPivot?_eq_some hp
    rw [ih i (Nat.lt_succ_of_lt hi) j, entry_clearBelow_of_lt a (htarget ▸ hi) (htarget ▸ hsource)]

variable [HasFinite α] [KeepsZeros α]

/-- A column has only zeros from the current row on at the end exactly if it has them now. -/
theorem zeroBelow_final_iff (row col : Nat) (a : Grid m n α)
    (hfinite : (Sweep.run clearBelow row col a).StaysFinite clearBelow) (j : Fin n) :
    (Sweep.run clearBelow row col a).final.ZeroBelow row j ↔ a.ZeroBelow row j := by
  induction row, col, a using @Sweep.run_induction α _ m n clearBelow with
  | stop row col a hstop => rw [Sweep.run_of_stop hstop]
  | next row col a p hrow hp ih =>
    obtain ⟨htarget, hsource, -, hlead, -⟩ := findPivot?_eq_some hp
    rw [Sweep.run_of_pivot hrow hp] at hfinite ⊢
    obtain ⟨hstep, htail⟩ := List.forall_mem_cons.1 hfinite
    have hrow' : row = (p.target : Nat) := by rw [htarget]
    subst hrow'
    have hkept := entry_final_of_lt (p.target + 1) (p.column + 1) (a.clearBelow p) p.target
      (Nat.lt_succ_self _) j
    calc (Sweep.run clearBelow (p.target + 1) (p.column + 1) (a.clearBelow p)).final.ZeroBelow
          p.target j
        ↔ Scalar.isZero ((a.clearBelow p).entry p.target j) = true ∧
            (a.clearBelow p).ZeroBelow (p.target + 1) j := by
          rw [zeroBelow_succ_iff, hkept, ih htail]
      _ ↔ (a.clearBelow p).ZeroBelow p.target j := (zeroBelow_succ_iff _ _ _).symm
      _ ↔ a.ZeroBelow p.target j := zeroBelow_clearBelow_iff hsource hlead hstep j

/-- What is below a pivot is zero at the end exactly if it is cleared when the pivot is chosen. -/
theorem zero_below_pivot_iff (row col : Nat) (a : Grid m n α)
    (hfinite : (Sweep.run clearBelow row col a).StaysFinite clearBelow) :
    ∀ st ∈ (Sweep.run clearBelow row col a).stages,
      ((Sweep.run clearBelow row col a).final.ZeroBelow (st.pivot.target + 1) st.pivot.column ↔
        st.Clears) := by
  induction row, col, a using @Sweep.run_induction α _ m n clearBelow with
  | stop row col a hstop =>
    rw [Sweep.run_of_stop hstop]
    exact fun st hst => nomatch hst
  | next row col a p hrow hp ih =>
    obtain ⟨htarget, -⟩ := findPivot?_eq_some hp
    rw [Sweep.run_of_pivot hrow hp] at hfinite ⊢
    obtain ⟨-, htail⟩ := List.forall_mem_cons.1 hfinite
    refine List.forall_mem_cons.2 ⟨?_, ih htail⟩
    have hrow' : row = (p.target : Nat) := by rw [htarget]
    subst hrow'
    refine (zeroBelow_final_iff _ _ _ htail p.column).trans ?_
    exact forall₂_congr fun i hi => isZero_clearBelow_column a hi

/-- The sweep ends in row echelon form exactly if it clears what is below each of its pivots. -/
theorem isEchelon_final_iff (row col : Nat) (a : Grid m n α)
    (hfinite : (Sweep.run clearBelow row col a).StaysFinite clearBelow)
    (h : a.EchelonUpTo row col) :
    (Sweep.run clearBelow row col a).final.IsEchelon ↔
      ∀ st ∈ (Sweep.run clearBelow row col a).stages, st.Clears := by
  induction row, col, a using @Sweep.run_induction α _ m n clearBelow with
  | stop row col a hstop =>
    rw [Sweep.run_of_stop hstop]
    exact iff_of_true (h.isEchelon (h.zero_of_stop hstop)) fun st hst => nomatch hst
  | next row col a p hrow hp ih =>
    obtain ⟨htarget, hsource, -, hlead, -⟩ := findPivot?_eq_some hp
    have hpivot := (List.forall_mem_cons.1
      (Sweep.run_of_pivot hrow hp ▸ zero_below_pivot_iff row col a hfinite)).1
    rw [Sweep.run_of_pivot hrow hp] at hfinite ⊢
    obtain ⟨hstep, htail⟩ := List.forall_mem_cons.1 hfinite
    have hrow' : row = (p.target : Nat) := by rw [htarget]
    subst hrow'
    by_cases hclears : (⟨a, p⟩ : Stage m n α).Clears
    · rw [ih htail (h.clearBelow hp hstep hclears), List.forall_mem_cons, and_iff_right hclears]
    · -- the pivot's row leads at the pivot, and there is something left below
      have hleads : (Sweep.run clearBelow (p.target + 1) (p.column + 1)
          (a.clearBelow p)).final.LeadsAt p.target p.column := by
        have hfinal := entry_final_of_lt (p.target + 1) (p.column + 1) (a.clearBelow p) p.target
          (Nat.lt_succ_self _)
        refine ⟨fun j hj => ?_, ?_⟩
        · rw [hfinal, entry_clearBelow_target]
          exact h.zero_left hp p.source hsource j hj
        · rw [hfinal, entry_clearBelow_target]
          exact hlead
      refine iff_of_false (fun hform => hclears (hpivot.1 fun i hi => ?_)) fun hall =>
        hclears (hall _ List.mem_cons_self)
      exact hform.below p.target i p.column hi hleads

/-- The echelon form is one exactly if the sweep clears what is below each of its pivots. -/
theorem isEchelon_echelonSweep_iff {a : Grid m n α} (h : a.echelonSweep.StaysFinite clearBelow) :
    a.echelonSweep.final.IsEchelon ↔ ∀ st ∈ a.echelonSweep.stages, st.Clears :=
  isEchelon_final_iff 0 0 a h a.echelonUpTo_zero

end Grid

end MatrixCalc
