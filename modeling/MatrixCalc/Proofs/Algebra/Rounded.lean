import MatrixCalc.Proofs.Algebra.Forms

/-!
# The sweep to the reduced form with rounding

This sweep never sets an entry to zero outright. An entry of the pivot's column becomes zero because
the pivot, divided by itself, is exactly one, and a column that was cleared stays so because every
later pivot's row is zero there. For both it is enough that the arithmetic is exact where a zero or
a one takes part (`Scalar.ExactUnits`); no law of a field is needed.

So the sweep ends in reduced row echelon form (`Grid.isReducedEchelon_final`), and a second one
changes nothing: each pivot is found where it stands, is one, and has nothing to clear
(`Grid.final_of_isReducedEchelon`).

§1 arithmetic that is exact at zero and one · §2 the invariant · §3 one step · §4 whole sweeps
-/

namespace MatrixCalc

universe u

open Scalar (HasFinite)

/-! ## §1 Arithmetic that is exact at zero and one -/

namespace Scalar

variable {α : Type u} [Scalar α]

/-- Equal, or both zero: two zeros may differ in their signs. -/
def SameValue (x y : α) : Prop := x = y ∨ isZero x = true ∧ isZero y = true

theorem SameValue.isZero_eq {x y : α} (h : SameValue x y) : isZero x = isZero y := by
  rcases h with rfl | ⟨hx, hy⟩
  · rfl
  · rw [hx, hy]

theorem SameValue.eq_of_ne_zero {x y : α} (h : SameValue x y) (hy : isZero y = false) : x = y :=
  h.resolve_right fun hzero => Bool.eq_false_iff.1 hy hzero.2

/-- Finite entries are exact where a zero or a one takes part, up to the sign of a zero. -/
class ExactUnits (α : Type u) [Scalar α] [HasFinite α] : Prop where
  isZero_one : isZero (1 : α) = false
  beq_self : ∀ {x : α}, HasFinite.IsFinite x → (x == x) = true
  div_self : ∀ {x : α}, HasFinite.IsFinite x → isZero x = false → x / x = 1
  mul_one : ∀ {x : α}, HasFinite.IsFinite x → x * 1 = x
  div_one : ∀ {x : α}, HasFinite.IsFinite x → x / 1 = x
  isZero_sub_self : ∀ {x : α}, HasFinite.IsFinite x → isZero (x - x) = true
  isZero_zero_div : ∀ {x y : α}, isZero x = true → HasFinite.IsFinite y → isZero y = false →
    isZero (x / y) = true
  isZero_mul_zero : ∀ {x y : α}, HasFinite.IsFinite x → isZero y = true → isZero (x * y) = true
  sub_zero : ∀ {x y : α}, HasFinite.IsFinite x → isZero y = true → SameValue (x - y) x

end Scalar

open Scalar (ExactUnits SameValue)

/-! ## §2 The invariant -/

namespace Grid

variable {α : Type u} [Scalar α] {m n : Nat} {a b : Grid m n α} {row : Fin m} {col : Nat}
  {p : Pivot m n}

/-- The rows above the current one lead with a one, and the rest of its column is zero. -/
structure ReducedUpTo (a : Grid m n α) (row col : Nat) : Prop extends EchelonUpTo a row col where
  lead_eq_one : ∀ i c, i.val < row → a.LeadsAt i c → a.entry i c = 1
  others : ∀ i k c, i.val < row → k ≠ i → a.LeadsAt i c → Scalar.isZero (a.entry k c) = true

theorem reducedUpTo_zero (a : Grid m n α) : a.ReducedUpTo 0 0 :=
  ⟨a.echelonUpTo_zero, fun _ _ h => absurd h (Nat.not_lt_zero _),
    fun _ _ _ h => absurd h (Nat.not_lt_zero _)⟩

/-- A step that turns the pivot into a one, clears the rest of its column and leaves what is left of
it completes one more row. -/
theorem ReducedUpTo.step (h : a.ReducedUpTo row col) (hp : a.findPivot? row col = some p)
    (hunit : Scalar.isZero (1 : α) = false)
    (hleft : ∀ i, ∀ j < p.column, SameValue (b.entry i j) (a.entry i j))
    (hone : b.entry row p.column = 1)
    (hothers : ∀ i, i ≠ row → Scalar.isZero (b.entry i p.column) = true) :
    b.ReducedUpTo (row + 1) (p.column + 1) := by
  obtain ⟨-, -, hcol, -, -, -⟩ := findPivot?_eq_some hp
  have hlead : Scalar.isZero (b.entry row p.column) = false := hone ▸ hunit
  have hnext : b.EchelonUpTo (row + 1) (p.column + 1) :=
    h.toEchelonUpTo.step hp (fun i j hj => (hleft i j hj).isZero_eq) hlead
      fun i hi => hothers i hi.ne'
  -- a row that is finished leads where it did, and the current one leads at the pivot
  have hcases (i : Fin m) (c : Fin n) (hi : i.val < row + 1) (hc : b.LeadsAt i c) :
      i.val < row ∧ a.LeadsAt i c ∧ c < p.column ∨ i = row ∧ c = p.column := by
    rcases Nat.lt_succ_iff_lt_or_eq.1 hi with hi | hi
    · obtain ⟨d, hd, hlead, -⟩ := h.leads i hi
      have hdp : d < p.column := hd.trans_le hcol
      have hb : b.LeadsAt i d :=
        ⟨fun j hj => (hleft i j (hj.trans hdp)).isZero_eq.trans (hlead.left j hj),
          (hleft i d hdp).isZero_eq.trans hlead.lead⟩
      rw [hc.unique hb]
      exact .inl ⟨hi, hlead, hdp⟩
    · have hi : i = row := Fin.ext hi
      subst hi
      refine .inr ⟨rfl, hc.unique ⟨fun j hj => ?_, hlead⟩⟩
      exact (hleft i j hj).isZero_eq.trans (h.zero_left hp i le_rfl j hj)
  refine ⟨hnext, fun i c hi hc => ?_, fun i k c hi hk hc => ?_⟩
  · rcases hcases i c hi hc with ⟨hi, hlead, hcp⟩ | ⟨rfl, rfl⟩
    · exact ((hleft i c hcp).eq_of_ne_zero hlead.lead).trans (h.lead_eq_one i c hi hlead)
    · exact hone
  · rcases hcases i c hi hc with ⟨hi, hlead, hcp⟩ | ⟨rfl, rfl⟩
    · exact (hleft k c hcp).isZero_eq.trans (h.others i k c hi hk hlead)
    · exact hothers k hk

theorem ReducedUpTo.isReducedEchelon {row : Nat} (h : a.ReducedUpTo row col)
    (hzero : ∀ i : Fin m, row ≤ i.val → ∀ j, Scalar.isZero (a.entry i j) = true) :
    a.IsReducedEchelon := by
  have hlt {i : Fin m} {c : Fin n} (hc : a.LeadsAt i c) : i.val < row := by
    by_contra hi
    exact Bool.eq_false_iff.1 hc.lead (hzero i (not_lt.1 hi) c)
  exact ⟨h.toEchelonUpTo.isEchelon hzero, fun i c hc => h.lead_eq_one i c (hlt hc) hc,
    fun i k c hk hc => h.others i k c (hlt hc) hk hc⟩

/-! ## §3 One step -/

theorem entry_apply_ofPivot (a : Grid m n α) (p : Pivot m n) (i : Fin m) (j : Fin n) :
    ((RowOperation.ofPivot a p).apply a).entry i j =
      if i = p.target then a.entry p.source j / a.entry p.source p.column
      else reduceEntry ((⟨a, p⟩ : Stage m n α).moved.entry i p.column)
        (a.entry p.source j / a.entry p.source p.column)
        ((⟨a, p⟩ : Stage m n α).moved.entry i j) := by
  rw [RowOperation.entry_apply, divisor_ofPivot]
  simp only [RowOperation.ofPivot, ← entry_moved_target a p]
  rfl

variable [HasFinite α] [ExactUnits α]

/-- Subtracting a multiple of zero leaves an entry as it is, up to the sign of a zero. -/
theorem sameValue_reduceEntry {factor lead x : α} (hfactor : HasFinite.IsFinite factor)
    (hx : HasFinite.IsFinite x) (hlead : Scalar.isZero lead = true) :
    SameValue (reduceEntry factor lead x) x := by
  unfold reduceEntry
  split
  · exact .inl rfl
  · exact ExactUnits.sub_zero hx (ExactUnits.isZero_mul_zero hfactor hlead)

/-- Subtracting an entry from itself clears it. -/
theorem isZero_reduceEntry {x : α} (hx : HasFinite.IsFinite x) :
    Scalar.isZero (reduceEntry x 1 x) = true := by
  unfold reduceEntry
  split
  next h => exact h
  next =>
    rw [ExactUnits.mul_one hx]
    exact ExactUnits.isZero_sub_self hx

/-- The columns left of the pivot keep their values. -/
theorem sameValue_apply_left (h : a.EchelonUpTo row col) (hp : a.findPivot? row col = some p)
    (ha : a.IsFinite) (i : Fin m) {j : Fin n} (hj : j < p.column) :
    SameValue (((RowOperation.ofPivot a p).apply a).entry i j) (a.entry i j) := by
  obtain ⟨rfl, hsource, -, hlead, -⟩ := findPivot?_eq_some hp
  have hzero : a.ZeroBelow p.target j := fun k hk => h.zero_left hp k hk j hj
  have hdivided : Scalar.isZero (a.entry p.source j / a.entry p.source p.column) = true :=
    ExactUnits.isZero_zero_div (hzero p.source hsource) (ha _ _) hlead
  rw [entry_apply_ofPivot]
  split
  next hi =>
    rw [hi]
    exact .inr ⟨hdivided, hzero p.target le_rfl⟩
  next =>
    have hkept := sameValue_reduceEntry (ha.moved p i p.column) (ha.moved p i j) hdivided
    by_cases hi : i < p.target
    · have hmoved : (⟨a, p⟩ : Stage m n α).moved.entry i j = a.entry i j := by
        rw [Stage.moved, entry_swapRows, if_neg hi.ne, if_neg (hi.trans_le hsource).ne]
      rwa [hmoved] at hkept ⊢
    · -- below the pivot's place both are zero
      have hmoved := (zeroBelow_moved_iff hsource j).2 hzero i (not_lt.1 hi)
      exact .inr ⟨hkept.isZero_eq.trans hmoved, hzero i (not_lt.1 hi)⟩

/-- The pivot becomes one and the rest of its column zero. -/
theorem entry_apply_column (hlead : Scalar.isZero (a.entry p.source p.column) = false)
    (ha : a.IsFinite) :
    ((RowOperation.ofPivot a p).apply a).entry p.target p.column = 1 ∧
      ∀ i, i ≠ p.target →
        Scalar.isZero (((RowOperation.ofPivot a p).apply a).entry i p.column) = true := by
  have hone : a.entry p.source p.column / a.entry p.source p.column = 1 :=
    ExactUnits.div_self (ha _ _) hlead
  constructor
  · rw [entry_apply_ofPivot, if_pos rfl, hone]
  · intro i hi
    rw [entry_apply_ofPivot, if_neg hi, hone]
    exact isZero_reduceEntry (ha.moved p i p.column)

/-- One step of the sweep completes one more row. -/
theorem ReducedUpTo.apply (h : a.ReducedUpTo row col) (hp : a.findPivot? row col = some p)
    (ha : a.IsFinite) :
    ((RowOperation.ofPivot a p).apply a).ReducedUpTo (row + 1) (p.column + 1) := by
  obtain ⟨rfl, -, -, hlead, -⟩ := findPivot?_eq_some hp
  obtain ⟨hone, hothers⟩ := entry_apply_column hlead ha
  exact h.step hp ExactUnits.isZero_one
    (fun i j hj => sameValue_apply_left h.toEchelonUpTo hp ha i hj) hone hothers

/-- A pivot of one in its place, in a column that is zero elsewhere, has nothing to do. -/
theorem apply_eq_self (ha : a.IsFinite) (hsource : p.source = p.target)
    (hone : a.entry p.target p.column = 1)
    (hothers : ∀ i, i ≠ p.target → Scalar.isZero (a.entry i p.column) = true) :
    (RowOperation.ofPivot a p).apply a = a := by
  have hmoved (i : Fin m) (j : Fin n) : (⟨a, p⟩ : Stage m n α).moved.entry i j = a.entry i j := by
    rw [Stage.moved, entry_swapRows_eq, hsource, Equiv.swap_self, Equiv.refl_apply]
  refine ext_entry fun i j => ?_
  rw [entry_apply_ofPivot, hsource, hone, hmoved, hmoved, ExactUnits.div_one (ha _ _)]
  split
  next hi => rw [hi]
  next hi => rw [reduceEntry, if_pos (hothers i hi)]

/-! ## §4 Whole sweeps -/

def reduceStep (a : Grid m n α) (p : Pivot m n) : Grid m n α := (RowOperation.ofPivot a p).apply a

omit [ExactUnits α] in
theorem isFinite_final {step : Grid m n α → Pivot m n → Grid m n α} (row col : Nat)
    (a : Grid m n α) (ha : a.IsFinite) (hfinite : (Sweep.run step row col a).StaysFinite step) :
    (Sweep.run step row col a).final.IsFinite := by
  refine Sweep.run_rec (motive := fun _ _ a s => a.IsFinite → s.StaysFinite step →
    s.final.IsFinite) ?_ ?_ row col a ha hfinite
  · exact fun _ _ _ _ ha _ => ha
  · intro row col a p rest _ _ ih _ hfinite
    obtain ⟨hstep, htail⟩ := List.forall_mem_cons.1 hfinite
    exact ih hstep htail

/-- The sweep ends in reduced row echelon form. -/
theorem isReducedEchelon_final (row col : Nat) (a : Grid m n α) (ha : a.IsFinite)
    (hfinite : (Sweep.run reduceStep row col a).StaysFinite reduceStep)
    (h : a.ReducedUpTo row col) : (Sweep.run reduceStep row col a).final.IsReducedEchelon := by
  refine Sweep.run_rec (motive := fun row col a s => a.IsFinite → s.StaysFinite reduceStep →
    a.ReducedUpTo row col → s.final.IsReducedEchelon) ?_ ?_ row col a ha hfinite h
  · exact fun row col a hstop _ _ h =>
      h.isReducedEchelon (h.toEchelonUpTo.zero_of_stop hstop)
  · intro row col a p rest hrow hp ih ha hfinite h
    obtain ⟨hstep, htail⟩ := List.forall_mem_cons.1 hfinite
    exact ih hstep htail (h.apply hp ha)

/-- A finite grid in reduced form is left as it is. -/
theorem final_of_isReducedEchelon (row col : Nat) (a : Grid m n α) (ha : a.IsFinite)
    (hform : a.IsReducedEchelon) (h : a.EchelonUpTo row col) :
    (Sweep.run reduceStep row col a).final = a := by
  refine Sweep.run_rec (motive := fun row col b s => b = a → a.EchelonUpTo row col → s.final = a)
    ?_ ?_ row col a rfl h
  · exact fun _ _ _ _ hb _ => hb
  · intro row col b p rest hrow hp ih hb h
    subst hb
    obtain ⟨htarget, -⟩ := findPivot?_eq_some hp
    obtain ⟨hsource, hleads⟩ := leadsAt_of_findPivot? hform.toIsEchelon h hp
    have hself : reduceStep b p = b :=
      apply_eq_self ha (hsource.trans htarget.symm) (htarget ▸ hform.lead_eq_one _ _ hleads)
        fun i hi => hform.others _ i _ (htarget ▸ hi) hleads
    refine ih hself (h.step hp (fun _ _ _ => rfl) hleads.lead fun i hi => ?_)
    exact hform.below _ i _ hi hleads

end Grid

end MatrixCalc
