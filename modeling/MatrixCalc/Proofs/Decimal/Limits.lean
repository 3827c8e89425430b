import MatrixCalc.Proofs.Decimal.Shortest

/-!
# Powers of ten among the doubles

The intervals of two doubles lie as the doubles do (`Magnitude.upper_le_lower`). So the shortest
decimal of a double begins below a power of ten exactly if the double is below the one that this
power of ten is the text of (`Magnitude.lead_shortest_lt_iff`), and comparing doubles tells whether
one is written with an exponent.

§1 the order of doubles · §2 the first digit of a text · §3 comparisons
-/

namespace MatrixCalc

open Float.Model Float.Model.UnpackedFloat

/-! ## §1 The order of doubles -/

namespace Magnitude

variable {v w : Magnitude}

/-- The order of doubles: by their exponents, and by their mantissas if these agree. -/
def Below (v w : Magnitude) : Prop :=
  v.exponent < w.exponent ∨ v.exponent = w.exponent ∧ v.mantissa < w.mantissa

theorem below_trichotomy (v w : Magnitude) : v.Below w ∨ v = w ∨ w.Below v := by
  unfold Below
  obtain ⟨m, e⟩ := v
  obtain ⟨n, f⟩ := w
  simp only [mk.injEq]
  omega

/-- The interval of a double ends where that of a larger one begins, or before. -/
theorem upper_le_lower (hv : v.IsDouble) (hw : w.IsDouble) (h : v.Below w) : v.upper ≤ w.lower := by
  have hunit : (0 : ℚ) < 2 ^ v.exponent := zpow_pos two_pos _
  have hgap := w.lowerGap_le
  unfold upper lower
  rcases h with hexp | ⟨hexp, hlt⟩
  · have hnormal := hw.normal (by linarith [hv.exponent_ge])
    have htop : (v.mantissa : ℚ) + 1 ≤ 2 ^ 53 := by exact_mod_cast hv.lt
    -- in the unit of the larger one, half a unit of the smaller is a quarter at most
    have hlower : (2 ^ 52 : ℚ) - 1 / 4 ≤ w.mantissa - w.lowerGap / 4 := by
      rcases hnormal.eq_or_lt with heq | hgt
      · have hone : w.lowerGap = 1 := if_pos ⟨heq.symm, by linarith [hv.exponent_ge]⟩
        rw [hone, ← heq]
        norm_num
      · have hgt : (2 ^ 52 : ℚ) + 1 ≤ w.mantissa := by exact_mod_cast hgt
        linarith
    calc ((v.mantissa : ℚ) + 1 / 2) * 2 ^ v.exponent
        ≤ (2 ^ 52 - 1 / 4) * 2 ^ (v.exponent + 1) := by
          rw [zpow_add_one₀ two_ne_zero]
          nlinarith
      _ ≤ (2 ^ 52 - 1 / 4) * 2 ^ w.exponent :=
          mul_le_mul_of_nonneg_left (zpow_le_zpow_right₀ one_le_two hexp) (by norm_num)
      _ ≤ (w.mantissa - w.lowerGap / 4) * 2 ^ w.exponent :=
          mul_le_mul_of_nonneg_right hlower (zpow_pos two_pos _).le
  · have hlt : (v.mantissa : ℚ) + 1 ≤ w.mantissa := by exact_mod_cast hlt
    rw [← hexp]
    exact mul_le_mul_of_nonneg_right (by linarith) hunit.le

end Magnitude

/-! ## §2 The first digit of a text -/

def Decimal.lead (d : Decimal) : ℤ := d.exponent + digitCount d.coefficient - 1

theorem Decimal.lead_lt_iff {d : Decimal} (hpos : 0 < d.coefficient) (k : ℤ) :
    d.lead < k ↔ d.val < 10 ^ k := by
  constructor
  · intro hlt
    refine d.val_lt.trans_le (zpow_le_zpow_right₀ (by norm_num) ?_)
    rw [lead] at hlt
    omega
  · intro hlt
    exact (zpow_lt_zpow_iff_right₀ (by norm_num)).1 ((le_val hpos).trans_lt hlt)

/-- If a double is written as a power of ten, the doubles below it are those whose text begins at a
lower place. -/
theorem Magnitude.lead_shortest_lt_iff {v w : Magnitude} (hv : v.IsDouble) (hw : w.IsDouble) {k : ℤ}
    (hpower : w.shortest = ⟨1, k⟩) (hlower : w.lower < 10 ^ k) :
    v.shortest.lead < k ↔ v.Below w := by
  have hheld := holds_shortest hv
  have hval : w.shortest.val = 10 ^ k := by
    rw [hpower, Decimal.val, Nat.cast_one, one_mul]
  rw [Decimal.lead_lt_iff (Decimal.place_bounds hv hheld).1]
  constructor
  · intro hlt
    rcases below_trichotomy v w with h | rfl | h
    · exact h
    · exact absurd hval hlt.ne
    · have hupper := (holds_shortest hw).le
      rw [hval] at hupper
      exact absurd hlt (not_lt.2 (hupper.trans ((upper_le_lower hw hv h).trans hheld.ge)))
  · intro h
    exact (hheld.le.trans (upper_le_lower hv hw h)).trans_lt hlower

/-- The double nearest to a ten-thousandth. -/
theorem Magnitude.lead_shortest_lt_low {v : Magnitude} (hv : v.IsDouble) :
    v.shortest.lead < -4 ↔ v.Below ⟨7378697629483821, -66⟩ := by
  refine lead_shortest_lt_iff hv ?_ (by decide +kernel) ?_
  · exact ⟨by norm_num, by norm_num, by norm_num, by norm_num, fun _ => by norm_num⟩
  · have hgap : (⟨7378697629483821, -66⟩ : Magnitude).lowerGap = 2 := by decide +kernel
    rw [lower, hgap]
    norm_num

/-- The double that is `1e16`. -/
theorem Magnitude.lead_shortest_lt_high {v : Magnitude} (hv : v.IsDouble) :
    v.shortest.lead < 16 ↔ v.Below ⟨5000000000000000, 1⟩ := by
  refine lead_shortest_lt_iff hv ?_ (by decide +kernel) ?_
  · exact ⟨by norm_num, by norm_num, by norm_num, by norm_num, fun _ => by norm_num⟩
  · have hgap : (⟨5000000000000000, 1⟩ : Magnitude).lowerGap = 2 := by decide +kernel
    rw [lower, hgap]
    norm_num

/-! ## §3 Comparisons -/

theorem IsPositive.lt_iff {x y : Float} {v w : Magnitude} (hx : IsPositive x v)
    (hy : IsPositive y w) : x < y ↔ v.Below w := by
  obtain ⟨hm, hx⟩ := hx
  obtain ⟨hn, hy⟩ := hy
  have hlt : x < y ↔ UnpackedFloat.lt x.toModel.unpack y.toModel.unpack = true :=
    decide_eq_true_iff (p := x.toModel < y.toModel)
  rw [hlt, hx, hy]
  show (some ((compare v.exponent w.exponent).then (compare v.mantissa w.mantissa)) == some .lt)
    = true ↔ _
  rw [beq_iff_eq, Option.some_inj, Ordering.then_eq_lt, compare_lt_iff_lt, compare_eq_iff_eq,
    compare_lt_iff_lt]
  rfl

theorem IsPositive.le_iff {x y : Float} {v w : Magnitude} (hx : IsPositive x v)
    (hy : IsPositive y w) : x ≤ y ↔ ¬ w.Below v := by
  obtain ⟨hm, hx⟩ := hx
  obtain ⟨hn, hy⟩ := hy
  have hle : x ≤ y ↔ UnpackedFloat.le x.toModel.unpack y.toModel.unpack = true :=
    decide_eq_true_iff (p := x.toModel ≤ y.toModel)
  rw [hle, hx, hy]
  show ((compare v.exponent w.exponent).then (compare v.mantissa w.mantissa)).isLE = true ↔ _
  rw [Ordering.isLE_iff_ne_gt, Ordering.then_eq_gt, compare_gt_iff_gt, compare_eq_iff_eq,
    compare_gt_iff_gt, Magnitude.Below, eq_comm]

theorem isPositive_abs {x : Float} {s : Sign} {m : ℕ} {e : ℤ} {hm : 0 < m}
    (hx : x.toModel.unpack = .finite s m e hm) : IsPositive x.abs ⟨m, e⟩ := by
  refine ⟨hm, ?_⟩
  show (Float.Model.pack (UnpackedFloat.abs x.toModel.unpack)).unpack = _
  rw [hx]
  exact unpack_pack (isDouble_of_unpack hx) .positive

end MatrixCalc
