import MatrixCalc.Proofs.Algebra.Echelon

/-!
# Two sweeps in lock step

The sweep to the echelon form takes multiples of the pivot's row from the rows below it; the sweep
to the reduced form divides the pivot's row first and takes multiples of it from all the others,
those above included. In exact arithmetic the rows that a search still looks at are the same for
both (`Grid.AgreeFrom`), so both find the same pivots. What differs between their forms comes from
what the second sweep did to a row after it was finished: it took multiples of later rows from it
(`Sweep.Apart`).

§1 rows that agree · §2 the sweeps side by side · §3 what later rows make · §4 where the rows lead ·
§5 both forms of a matrix
-/

namespace MatrixCalc

universe u

namespace Grid

/-! ## §1 Rows that agree -/

section Scalar

variable {α : Type u} {m n : Nat}

/-- From a row on, two grids have the same rows. -/
def AgreeFrom (a b : Grid m n α) (row : Nat) : Prop :=
  ∀ i : Fin m, row ≤ i.val → a.entry i = b.entry i

variable [Scalar α] {a b : Grid m n α} {row : Fin m}

/-- A search looks at nothing else. -/
theorem AgreeFrom.findPivot?_eq (h : a.AgreeFrom b row) (col : Nat) :
    a.findPivot? row col = b.findPivot? row col := by
  have hrow (j : Fin n) : a.pivotRow? row j = b.pivotRow? row j := by
    refine congrArg (List.find? · (List.finRange m)) (funext fun i => ?_)
    by_cases hi : row ≤ i
    · rw [congrFun (h i hi) j]
    · rw [decide_eq_false hi, Bool.false_and, Bool.false_and]
  simp only [findPivot?, hrow]

end Scalar

variable {α : Type u} [Field α] [DecidableEq α] {m n : Nat} {a b : Grid m n α} {p : Pivot m n}

theorem entry_clearBelow_below (hlead : a.entry p.source p.column ≠ 0) {i : Fin m}
    (hi : p.target < i) (j : Fin n) :
    (a.clearBelow p).entry i j =
      a.entry (Equiv.swap p.target p.source i) j -
        a.entry (Equiv.swap p.target p.source i) p.column / a.entry p.source p.column *
          a.entry p.source j := by
  rw [clearBelow_eq hlead, RowOperation.entry_apply_eq]
  simp only [RowOperation.belowPivot, entry_swapRows_eq, Equiv.swap_apply_left, div_one]
  rw [if_neg hi.ne', if_pos hi]

theorem entry_reduceStep (a : Grid m n α) (p : Pivot m n) (i : Fin m) (j : Fin n) :
    (a.reduceStep p).entry i j =
      if i = p.target then a.entry p.source j / a.entry p.source p.column
      else a.entry (Equiv.swap p.target p.source i) j -
        a.entry (Equiv.swap p.target p.source i) p.column *
          (a.entry p.source j / a.entry p.source p.column) := by
  rw [reduceStep, entry_apply_ofPivot, RowOperation.reduceEntry_eq, Stage.moved, entry_swapRows_eq,
    entry_swapRows_eq]

/-- The pivot's row is divided by the pivot, -/
theorem reduceStep_target (a : Grid m n α) (p : Pivot m n) :
    (a.reduceStep p).entry p.target =
      (a.entry p.source p.column)⁻¹ • a.entry p.source := by
  ext j
  rw [entry_reduceStep, if_pos rfl, Pi.smul_apply, smul_eq_mul, div_eq_inv_mul]

/-- and a row above loses a multiple of it. -/
theorem reduceStep_above (a : Grid m n α) (hsource : p.target ≤ p.source) {i : Fin m}
    (hi : i < p.target) :
    (a.reduceStep p).entry i =
      a.entry i - (a.entry i p.column / a.entry p.source p.column) • a.entry p.source := by
  ext j
  rw [entry_reduceStep, if_neg hi.ne, Equiv.swap_apply_of_ne_of_ne hi.ne (hi.trans_le hsource).ne,
    Pi.sub_apply, Pi.smul_apply, smul_eq_mul, div_mul_eq_mul_div, mul_div_assoc]

/-- The row of a pivot ends as it was found. -/
theorem entry_final_target (a : Grid m n α) (p : Pivot m n) (col : Nat) :
    (Sweep.run clearBelow (p.target + 1) col (a.clearBelow p)).final.entry p.target =
      a.entry p.source := by
  ext j
  rw [entry_final_of_lt _ _ _ p.target (Nat.lt_succ_self _), entry_clearBelow_target]

/-- After a step of each sweep the rows below the pivot agree again: it makes no difference whether
an entry or the pivot's row is divided by the pivot before they are multiplied. -/
theorem AgreeFrom.step {row : Fin m} {col : Nat} (h : a.AgreeFrom b row)
    (hp : a.findPivot? row col = some p) :
    (a.clearBelow p).AgreeFrom (b.reduceStep p) (row + 1) := by
  obtain ⟨rfl, hsource, -⟩ := findPivot?_eq_some hp
  intro i hi
  have hlt : p.target < i := hi
  have hplace : p.target ≤ Equiv.swap p.target p.source i := by
    rw [Equiv.swap_apply_def]
    split
    · exact hsource
    split
    · exact le_rfl
    · exact hlt.le
  ext j
  rw [entry_clearBelow_below (findPivot?_ne_zero hp) hlt, entry_reduceStep, if_neg hlt.ne',
    h _ hsource, h _ hplace, div_mul_eq_mul_div, mul_div_assoc]

end Grid

/-! ## §2 The sweeps side by side -/

/-- Two stages at which the same pivot is found, in grids that agree from the current row on. -/
structure Stage.InStep {α : Type u} {m n : Nat} (st st' : Stage m n α) : Prop where
  pivot : st.pivot = st'.pivot
  before : st.before.AgreeFrom st'.before st.pivot.target

theorem Sweep.pivots_eq_of_inStep {α : Type u} {m n : Nat} {s t : Sweep m n α}
    (h : List.Forall₂ Stage.InStep s.stages t.stages) : s.pivots = t.pivots := by
  have hsame : List.Forall₂ Eq s.pivots t.pivots := by
    rw [pivots, pivots, List.forall₂_map_left_iff, List.forall₂_map_right_iff]
    exact h.imp fun _ _ hst => hst.pivot
  rwa [List.forall₂_eq_eq_eq] at hsame

namespace Sweep

open Grid (clearBelow reduceStep)

variable {α : Type u} [Field α] [DecidableEq α] {m n : Nat}

/-- What holds of two grids where both sweeps stop, and where both go on with the same pivot if it
holds after the two steps, holds of all grids that agree from the current row on. -/
theorem lockStep_induction {motive : Nat → Nat → Grid m n α → Grid m n α → Prop}
    (stop : ∀ row col a b, a.AgreeFrom b row →
      (∀ h : row < m, a.findPivot? ⟨row, h⟩ col = none) →
      (∀ h : row < m, b.findPivot? ⟨row, h⟩ col = none) → motive row col a b)
    (next : ∀ row col a b p (h : row < m), a.AgreeFrom b row →
      a.findPivot? ⟨row, h⟩ col = some p → b.findPivot? ⟨row, h⟩ col = some p →
      motive (row + 1) (p.column + 1) (a.clearBelow p) (b.reduceStep p) → motive row col a b)
    (row col : Nat) (a b : Grid m n α) (h : a.AgreeFrom b row) : motive row col a b := by
  induction row, col, a using @Sweep.run_induction α _ m n clearBelow generalizing b with
  | stop row col a hstop =>
    exact stop row col a b h hstop fun hrow => (h.findPivot?_eq col).symm.trans (hstop hrow)
  | next row col a p hrow hp ih =>
    have hq : b.findPivot? ⟨row, hrow⟩ col = some p := (h.findPivot?_eq col).symm.trans hp
    exact next row col a b p hrow h hp hq (ih _ (h.step hp))

/-- Both sweeps go through the same pivots, and before each of them, and where they stop, the rows
agree from the current one on. -/
theorem inStep_run (row col : Nat) (a b : Grid m n α) (h : a.AgreeFrom b row) :
    List.Forall₂ Stage.InStep (run clearBelow row col a).stages (run reduceStep row col b).stages ∧
      (run clearBelow row col a).final.AgreeFrom (run reduceStep row col b).final
        (row + (run clearBelow row col a).stages.length) := by
  refine lockStep_induction (motive := fun row col a b =>
    List.Forall₂ Stage.InStep (run clearBelow row col a).stages (run reduceStep row col b).stages ∧
      (run clearBelow row col a).final.AgreeFrom (run reduceStep row col b).final
        (row + (run clearBelow row col a).stages.length)) ?_ ?_ row col a b h
  · intro row col a b h hstop hstop'
    rw [run_of_stop hstop, run_of_stop hstop']
    exact ⟨.nil, h⟩
  · rintro row col a b p hrow h hp hq ⟨hstages, hfinal⟩
    obtain ⟨htarget, -⟩ := Grid.findPivot?_eq_some hp
    rw [run_of_pivot hrow hp, run_of_pivot hrow hq]
    refine ⟨.cons ⟨rfl, ?_⟩ hstages, ?_⟩
    · show a.AgreeFrom b p.target
      rwa [htarget]
    · rw [Nat.add_right_comm] at hfinal
      exact hfinal

theorem target_of_getElem? {step : Grid m n α → Pivot m n → Grid m n α} (row col : Nat)
    (a : Grid m n α) :
    ∀ k p, (run step row col a).pivots[k]? = some p → p.target.val = row + k := by
  refine run_rec (motive := fun row _ _ s => ∀ k p, s.pivots[k]? = some p → p.target.val = row + k)
    ?_ ?_ row col a
  · exact fun _ _ _ _ k p hp => nomatch hp
  · intro row col a p rest hrow hp ih k q hq
    obtain ⟨htarget, -⟩ := Grid.findPivot?_eq_some hp
    cases k with
    | zero =>
      obtain rfl : p = q := Option.some.inj hq
      rw [htarget]
      rfl
    | succ k =>
      rw [ih k q hq]
      omega

end Sweep

/-! ## §3 What later rows make -/

namespace Grid

variable {α : Type u} [Field α] {m n : Nat}

/-- All sums of multiples of the rows from one on. -/
def spanFrom (a : Grid m n α) (row : Nat) : Submodule α (Fin n → α) :=
  Submodule.span α (a.entry '' {i | row ≤ i.val})

variable {a b : Grid m n α}

theorem spanFrom_anti {row row' : Nat} (h : row ≤ row') : a.spanFrom row' ≤ a.spanFrom row :=
  Submodule.span_mono (Set.image_mono fun _ hi => h.trans hi)

theorem entry_mem_spanFrom {row : Nat} {i : Fin m} (h : row ≤ i.val) :
    a.entry i ∈ a.spanFrom row :=
  Submodule.subset_span ⟨i, h, rfl⟩

theorem spanFrom_succ (a : Grid m n α) (row : Fin m) :
    a.spanFrom row = Submodule.span α {a.entry row} ⊔ a.spanFrom (row + 1) := by
  have hrows : {i : Fin m | row.val ≤ i.val} = insert row {i | row.val + 1 ≤ i.val} := by
    ext i
    simp only [Set.mem_ofPred_eq, Set.mem_insert_iff, Fin.ext_iff]
    omega
  rw [spanFrom, spanFrom, hrows, Set.image_insert_eq, Submodule.span_insert]

theorem AgreeFrom.spanFrom_eq {row : Nat} (h : a.AgreeFrom b row) :
    a.spanFrom row = b.spanFrom row :=
  congrArg (Submodule.span α) (Set.image_congr fun i hi => h i hi)

/-- A column that is zero in some rows is zero in all that they make. -/
theorem eq_zero_of_mem_spanFrom {row : Nat} {j : Fin n}
    (h : ∀ i : Fin m, row ≤ i.val → a.entry i j = 0) {v : Fin n → α} (hv : v ∈ a.spanFrom row) :
    v j = 0 := by
  have hle : a.spanFrom row ≤ LinearMap.ker (LinearMap.proj j : (Fin n → α) →ₗ[α] α) := by
    refine Submodule.span_le.2 ?_
    rintro _ ⟨i, hi, rfl⟩
    exact h i hi
  exact hle hv

end Grid

/-- Two vectors, one of them divided, make the same together with a space that their difference is
in. -/
theorem span_sup_eq_of_sub_mem {α β : Type u} [Field α] [AddCommGroup β] [Module α β]
    {w : Submodule α β} {u v : β} {x : α} (hx : x ≠ 0) (h : x⁻¹ • u - v ∈ w) :
    Submodule.span α {u} ⊔ w = Submodule.span α {v} ⊔ w := by
  have hu : u = x • v + x • (x⁻¹ • u - v) := by
    rw [smul_sub, smul_inv_smul₀ hx, add_sub_cancel]
  have hv : v = x⁻¹ • u - (x⁻¹ • u - v) := (sub_sub_cancel _ _).symm
  refine le_antisymm (sup_le ?_ le_sup_right) (sup_le ?_ le_sup_right)
  · rw [Submodule.span_singleton_le_iff_mem, hu]
    have hmem : v ∈ Submodule.span α {v} ⊔ w :=
      Submodule.mem_sup_left (Submodule.mem_span_singleton_self v)
    exact add_mem (Submodule.smul_mem _ x hmem)
      (Submodule.mem_sup_right (Submodule.smul_mem _ x h))
  · rw [Submodule.span_singleton_le_iff_mem, hv]
    have hmem : u ∈ Submodule.span α {u} ⊔ w :=
      Submodule.mem_sup_left (Submodule.mem_span_singleton_self u)
    exact sub_mem (Submodule.smul_mem _ _ hmem) (Submodule.mem_sup_right h)

namespace Sweep

open Grid (clearBelow reduceStep)

variable {α : Type u} [Field α] [DecidableEq α] {m n : Nat}

/-- What two sweeps end in after they went on from a row, the second of them with the grid `b`: a
row above has lost multiples of the later rows of the first form, and so has the row of a pivot,
compared with that row of the first form divided by the pivot. -/
structure Apart (row : Nat) (b : Grid m n α) (s t : Sweep m n α) : Prop where
  above : ∀ i : Fin m, i.val < row → t.final.entry i - b.entry i ∈ s.final.spanFrom row
  same : s.final.spanFrom row = t.final.spanFrom row
  pivots : ∀ p ∈ s.pivots,
    (s.final.entry p.target p.column)⁻¹ • s.final.entry p.target - t.final.entry p.target ∈
        s.final.spanFrom (p.target + 1) ∧
      s.final.spanFrom (p.target + 1) = t.final.spanFrom (p.target + 1)

theorem apart_run (row col : Nat) (a b : Grid m n α) (h : a.AgreeFrom b row) :
    Apart row b (run clearBelow row col a) (run reduceStep row col b) := by
  refine lockStep_induction (motive := fun row col a b =>
    Apart row b (run clearBelow row col a) (run reduceStep row col b)) ?_ ?_ row col a b h
  · intro row col a b h hstop hstop'
    rw [run_of_stop hstop, run_of_stop hstop']
    refine ⟨fun i _ => ?_, h.spanFrom_eq, fun p hp => nomatch hp⟩
    rw [sub_self]
    exact zero_mem _
  · intro row col a b p hrow h hp hq ih
    obtain ⟨htarget, hsource, -⟩ := Grid.findPivot?_eq_some hp
    have hrow' : row = (p.target : Nat) := by rw [htarget]
    subst hrow'
    rw [run_of_pivot hrow hp, run_of_pivot hrow hq]
    have hx := Grid.findPivot?_ne_zero hp
    have hkept := Grid.entry_final_target a p (p.column + 1)
    -- the row of the pivot, and its difference to what the other sweep makes of it
    have hdiff : (a.entry p.source p.column)⁻¹ • a.entry p.source -
        (run reduceStep (p.target + 1) (p.column + 1) (b.reduceStep p)).final.entry p.target ∈
          (run clearBelow (p.target + 1) (p.column + 1) (a.clearBelow p)).final.spanFrom
            (p.target + 1) := by
      have hrow := ih.above p.target (Nat.lt_succ_self _)
      rw [Grid.reduceStep_target, ← h _ hsource] at hrow
      exact neg_sub (_ : Fin n → α) _ ▸ neg_mem hrow
    refine ⟨fun i hi => ?_, ?_, List.forall_mem_cons.2 ⟨?_, ih.pivots⟩⟩
    · have hlater := Grid.spanFrom_anti (Nat.le_succ _) (ih.above i (Nat.lt_succ_of_lt hi))
      obtain ⟨x, hstep⟩ : ∃ x : α, (b.reduceStep p).entry i = b.entry i - x • b.entry p.source :=
        ⟨_, Grid.reduceStep_above b hsource hi⟩
      have hmem : b.entry p.source ∈ (run clearBelow (p.target + 1) (p.column + 1)
          (a.clearBelow p)).final.spanFrom p.target := by
        rw [← h _ hsource, ← hkept]
        exact Grid.entry_mem_spanFrom le_rfl
      have hboth := sub_mem hlater (Submodule.smul_mem _ x hmem)
      rwa [hstep, sub_sub, sub_add_cancel] at hboth
    · rw [Grid.spanFrom_succ, Grid.spanFrom_succ, ← ih.same, hkept]
      exact span_sup_eq_of_sub_mem hx hdiff
    · refine ⟨?_, ih.same⟩
      rw [hkept]
      exact hdiff

end Sweep

/-! ## §4 Where the rows lead -/

namespace Grid

section Scalar

variable {α : Type u} [Scalar α] {m n : Nat}

def nonzeroRows (a : Grid m n α) : Nat :=
  (Finset.univ.filter fun i : Fin m => ∃ j, Scalar.isZero (a.entry i j) = false).card

/-- The rows lead at some pivots, one after the other, and the others are zero. -/
structure LeadsAlong (a : Grid m n α) (pivots : List (Pivot m n)) : Prop where
  target : ∀ (k : Nat) (p : Pivot m n), pivots[k]? = some p → p.target.val = k
  leads : ∀ p ∈ pivots, a.LeadsAt p.target p.column
  zero : ∀ i : Fin m, pivots.length ≤ i.val → ∀ j, Scalar.isZero (a.entry i j) = true

variable {a : Grid m n α} {pivots : List (Pivot m n)}

theorem LeadsAlong.exists_pivot (h : a.LeadsAlong pivots) {i : Fin m} (hi : i.val < pivots.length) :
    ∃ p ∈ pivots, p.target = i := by
  refine ⟨pivots[i.val], List.getElem_mem hi, Fin.ext ?_⟩
  exact h.target i _ (List.getElem?_eq_getElem hi)

theorem LeadsAlong.leadsAt_iff (h : a.LeadsAlong pivots) (i : Fin m) (c : Fin n) :
    a.LeadsAt i c ↔ ∃ p ∈ pivots, p.target = i ∧ p.column = c := by
  constructor
  · intro hc
    by_cases hi : i.val < pivots.length
    · obtain ⟨p, hp, rfl⟩ := h.exists_pivot hi
      exact ⟨p, hp, rfl, (h.leads p hp).unique hc⟩
    · exact absurd (h.zero i (not_lt.1 hi) c) (Bool.eq_false_iff.1 hc.lead)
  · rintro ⟨p, hp, rfl, rfl⟩
    exact h.leads p hp

theorem LeadsAlong.nonzeroRows_eq (h : a.LeadsAlong pivots) : a.nonzeroRows = pivots.length := by
  have hrows (i : Fin m) :
      (∃ j, Scalar.isZero (a.entry i j) = false) ↔ i.val < pivots.length := by
    constructor
    · rintro ⟨j, hj⟩
      by_contra hi
      exact Bool.eq_false_iff.1 hj (h.zero i (not_lt.1 hi) j)
    · intro hi
      obtain ⟨p, hp, rfl⟩ := h.exists_pivot hi
      exact ⟨p.column, (h.leads p hp).lead⟩
  have hle : pivots.length ≤ m := by
    by_contra hlt
    have hm := h.target m _ (List.getElem?_eq_getElem (not_le.1 hlt))
    exact absurd hm (Fin.isLt _).ne
  rw [nonzeroRows, Finset.filter_congr fun i _ => hrows i, Fin.card_filter_val_lt,
    Nat.min_eq_right hle]

end Scalar

variable {α : Type u} [Field α] [DecidableEq α] {m n : Nat} {a b : Grid m n α}

theorem IsEchelon.eq_zero_below (hform : a.IsEchelon) {i : Fin m} {c : Fin n} (hc : a.LeadsAt i c)
    {j : Fin n} (hj : j ≤ c) (k : Fin m) (hk : i.val + 1 ≤ k.val) : a.entry k j = 0 := by
  rcases a.zero_or_leadsAt k with hzero | ⟨d, hd⟩
  · exact eq_of_beq (hzero j)
  · exact eq_of_beq (hd.left j (hj.trans_lt (hform.lead_lt i k c d hk hc hd)))

/-- The rows of the sweep to the echelon form lead at its pivots, and where it stops nothing is
left. -/
theorem leads_run (row col : Nat) (a : Grid m n α) (h : a.EchelonUpTo row col) :
    let s := Sweep.run Grid.clearBelow row col a
    (∀ p ∈ s.pivots, s.final.LeadsAt p.target p.column) ∧
      ∀ i : Fin m, row + s.pivots.length ≤ i.val →
        ∀ j, Scalar.isZero (s.final.entry i j) = true := by
  induction row, col, a using @Sweep.run_induction α _ m n Grid.clearBelow with
  | stop row col a hstop =>
    rw [Sweep.run_of_stop hstop]
    exact ⟨List.forall_mem_nil _, fun i hi => h.zero_of_stop hstop i hi⟩
  | next row col a p hrow hp ih =>
    obtain ⟨htarget, hsource, -, hlead, -⟩ := findPivot?_eq_some hp
    have hrow' : row = (p.target : Nat) := by rw [htarget]
    subst hrow'
    have hclears : (⟨a, p⟩ : Stage m n α).Clears :=
      Stage.clears_of_ne_zero (findPivot?_ne_zero hp)
    obtain ⟨hleads, hzero⟩ := ih (h.clearBelow hp (fun _ _ => trivial) hclears)
    rw [Sweep.run_of_pivot hrow hp]
    refine ⟨List.forall_mem_cons.2 ⟨⟨fun j hj => ?_, ?_⟩, hleads⟩, fun i hi => hzero i ?_⟩
    · rw [entry_final_target]
      exact h.zero_left hp p.source hsource j hj
    · rw [entry_final_target]
      exact hlead
    · rwa [Nat.add_right_comm]

/-- The rows of the echelon form lead at its pivots, -/
theorem leadsAlong_echelonSweep (a : Grid m n α) :
    a.echelonSweep.final.LeadsAlong a.echelonSweep.pivots := by
  obtain ⟨hleads, hzero⟩ := leads_run 0 0 a a.echelonUpTo_zero
  refine ⟨fun k p hp => ?_, hleads, fun i hi => hzero i (by rwa [Nat.zero_add])⟩
  rw [Sweep.target_of_getElem? 0 0 a k p hp, Nat.zero_add]

/-- and so do those of another form that is apart from it by later rows. -/
theorem LeadsAlong.of_apart {s t : Sweep m n α} (h : s.final.LeadsAlong s.pivots)
    (hform : s.final.IsEchelon) (hagree : s.final.AgreeFrom t.final s.pivots.length)
    (hapart : s.Apart 0 b t) : t.final.LeadsAlong s.pivots := by
  refine ⟨h.target, fun p hp => ?_, fun i hi j => ?_⟩
  · have hleads := h.leads p hp
    have hentry (j : Fin n) (hj : j ≤ p.column) : t.final.entry p.target j =
        (s.final.entry p.target p.column)⁻¹ * s.final.entry p.target j := by
      have hdiff := eq_zero_of_mem_spanFrom (fun k hk => hform.eq_zero_below hleads hj k hk)
        (hapart.pivots p hp).1
      exact (sub_eq_zero.1 hdiff).symm
    refine ⟨fun j hj => ?_, ?_⟩
    · rw [hentry j hj.le, eq_of_beq (hleads.left j hj), mul_zero]
      exact beq_self_eq_true 0
    · rw [hentry p.column le_rfl, inv_mul_cancel₀ (beq_eq_false_iff_ne.1 hleads.lead)]
      exact beq_eq_false_iff_ne.2 one_ne_zero
  · rw [← hagree i hi]
    exact h.zero i hi j

end Grid

/-! ## §5 Both forms of a matrix -/

/-- In exact arithmetic both forms of a matrix come from the same pivots, which are moved to one row
after the other, and before each of them, and at the end, the rows from the current one on are the
same in both working copies. So the rows of both forms lead at these pivots and nowhere else, and as
many of them are not zero. A row of the echelon form, divided by its pivot, differs from that row of
the reduced form by multiples of later rows, of the one form or of the other. -/
theorem DenseMatrix.forms_in_lock_step {α : Type u} [Field α] [DecidableEq α] (a : DenseMatrix α) :
    let s := a.grid.echelonSweep
    let t := a.grid.reducedSweep
    (a.echelon = ofGrid s.final ∧ a.reducedEchelon = ofGrid t.final) ∧
    (s.pivots = t.pivots ∧
      ∀ (k : Nat) (p : Pivot a.rows a.cols), s.pivots[k]? = some p → p.target.val = k) ∧
    (List.Forall₂ Stage.InStep s.stages t.stages ∧ s.final.AgreeFrom t.final s.stages.length) ∧
    (∀ i c, (s.final.LeadsAt i c ↔ ∃ p ∈ s.pivots, p.target = i ∧ p.column = c) ∧
      (t.final.LeadsAt i c ↔ ∃ p ∈ s.pivots, p.target = i ∧ p.column = c)) ∧
    (s.final.nonzeroRows = s.pivots.length ∧ t.final.nonzeroRows = s.pivots.length) ∧
    ∀ i c, s.final.LeadsAt i c →
      (s.final.entry i c)⁻¹ • s.final.entry i - t.final.entry i ∈ s.final.spanFrom (i + 1) ∧
        s.final.spanFrom (i + 1) = t.final.spanFrom (i + 1) := by
  intro s t
  have hself : a.grid.AgreeFrom a.grid 0 := fun _ _ => rfl
  obtain ⟨hstages, hfinal⟩ := Sweep.inStep_run 0 0 a.grid a.grid hself
  have hagree : s.final.AgreeFrom t.final s.stages.length := by rwa [Nat.zero_add] at hfinal
  have hapart : s.Apart 0 a.grid t := Sweep.apart_run 0 0 a.grid a.grid hself
  have hs : s.final.LeadsAlong s.pivots := a.grid.leadsAlong_echelonSweep
  have ht : t.final.LeadsAlong s.pivots :=
    hs.of_apart a.grid.isEchelon_echelonSweep (by rwa [Sweep.pivots, List.length_map]) hapart
  refine ⟨⟨rfl, rfl⟩, ⟨Sweep.pivots_eq_of_inStep hstages, hs.target⟩, ⟨hstages, hagree⟩,
    fun i c => ⟨hs.leadsAt_iff i c, ht.leadsAt_iff i c⟩, ⟨hs.nonzeroRows_eq, ht.nonzeroRows_eq⟩,
    fun i c hc => ?_⟩
  obtain ⟨p, hp, rfl, rfl⟩ := (hs.leadsAt_iff i c).1 hc
  exact hapart.pivots p hp

/-- A matrix of rationals without a pivot in its first and its third column, for which rows have to
be exchanged. -/
theorem DenseMatrix.forms_in_lock_step_rationals :
    let a : DenseMatrix ℚ := ofGrid #v[#v[0, 0, 0, 5], #v[0, 2, 4, 1], #v[0, 3, 6, 1]]
    let s := a.grid.echelonSweep
    let t := a.grid.reducedSweep
    s.pivots.map (fun p => (p.target.val, p.source.val, p.column.val)) = [(0, 1, 1), (1, 1, 3)] ∧
      s.pivots = t.pivots ∧ s.final.nonzeroRows = t.final.nonzeroRows ∧
      ∀ p ∈ s.pivots, (s.final.entry p.target p.column)⁻¹ • s.final.entry p.target -
        t.final.entry p.target ∈ s.final.spanFrom (p.target + 1) := by
  intro a s t
  obtain ⟨-, ⟨hpivots, -⟩, -, hleads, ⟨hs, ht⟩, hrows⟩ := forms_in_lock_step a
  refine ⟨by decide +kernel, hpivots, hs.trans ht.symm, fun p hp => ?_⟩
  exact (hrows p.target p.column ((hleads _ _).1.2 ⟨p, hp, rfl, rfl⟩)).1

end MatrixCalc
