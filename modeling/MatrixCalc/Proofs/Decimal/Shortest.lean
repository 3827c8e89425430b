import MatrixCalc.Proofs.Decimal.Nearest

/-!
# The shortest decimal is near enough

The search for the shortest decimal ends with a decimal of the interval
(`Magnitude.holds_shortest`): whatever it finds is in it, and with seventeen digits one of the two
multiples of a power of ten around the double is.

§1 comparing · §2 the multiples around a double · §3 the search
-/

namespace MatrixCalc

/-! ## §1 Comparing -/

namespace Decimal

theorem tenPow_eq (n : ℕ) : tenPow n = 10 ^ n := rfl

theorem twoPow_eq (n : ℕ) : twoPow n = 2 ^ n := rfl

theorem aligned_eq (c : ℕ) (a : ℤ) (x : ℕ) (b : ℤ) :
    ∃ k : ℚ, 0 < k ∧ ((aligned c a x b).1 : ℚ) = c * 10 ^ a * k ∧
      ((aligned c a x b).2 : ℚ) = x * 2 ^ b * k := by
  refine ⟨10 ^ (-a).toNat * 2 ^ (-b).toNat, by positivity, ?_, ?_⟩
  · simp only [aligned, tenPow_eq, twoPow_eq]
    push_cast
    rw [← zpow_mul_pow_neg (by norm_num) a]
    ring
  · simp only [aligned, tenPow_eq, twoPow_eq]
    push_cast
    rw [← zpow_mul_pow_neg two_ne_zero b]
    ring

theorem aligned_le_iff (c : ℕ) (a : ℤ) (x : ℕ) (b : ℤ) :
    (aligned c a x b).1 ≤ (aligned c a x b).2 ↔ (c * 10 ^ a : ℚ) ≤ x * 2 ^ b := by
  obtain ⟨k, hk, hleft, hright⟩ := aligned_eq c a x b
  rw [← Nat.cast_le (α := ℚ), hleft, hright, mul_le_mul_iff_left₀ hk]

theorem aligned_ge_iff (c : ℕ) (a : ℤ) (x : ℕ) (b : ℤ) :
    (aligned c a x b).2 ≤ (aligned c a x b).1 ↔ (x * 2 ^ b : ℚ) ≤ c * 10 ^ a := by
  obtain ⟨k, hk, hleft, hright⟩ := aligned_eq c a x b
  rw [← Nat.cast_le (α := ℚ), hleft, hright, mul_le_mul_iff_left₀ hk]

end Decimal

namespace Magnitude

variable {v : Magnitude}

def val (v : Magnitude) : ℚ := v.mantissa * 2 ^ v.exponent

theorem lower_eq (hv : v.IsDouble) :
    v.lower = (4 * v.mantissa - v.lowerGap : ℕ) * 2 ^ (v.exponent - 2) := by
  have hgap : v.lowerGap ≤ 4 * v.mantissa := by
    have hle := v.lowerGap_le
    have hpos := hv.pos
    norm_cast at hle
    omega
  rw [lower, Nat.cast_sub hgap, zpow_sub₀ two_ne_zero]
  push_cast
  ring

theorem upper_eq (v : Magnitude) :
    v.upper = (4 * v.mantissa + 2 : ℕ) * 2 ^ (v.exponent - 2) := by
  rw [upper, zpow_sub₀ two_ne_zero]
  push_cast
  ring

theorem encloses_iff (hv : v.IsDouble) (d : Decimal) : v.encloses d = true ↔ v.Holds d.val := by
  have hlow := Decimal.aligned_ge_iff d.coefficient d.exponent (4 * v.mantissa - v.lowerGap)
    (v.exponent - 2)
  have hlow' := Decimal.aligned_le_iff d.coefficient d.exponent (4 * v.mantissa - v.lowerGap)
    (v.exponent - 2)
  have hhigh := Decimal.aligned_le_iff d.coefficient d.exponent (4 * v.mantissa + 2)
    (v.exponent - 2)
  have hhigh' := Decimal.aligned_ge_iff d.coefficient d.exponent (4 * v.mantissa + 2)
    (v.exponent - 2)
  rw [← lower_eq hv] at hlow hlow'
  rw [← upper_eq v] at hhigh hhigh'
  unfold encloses
  dsimp only
  split
  next heven =>
    rw [Bool.and_eq_true, decide_eq_true_eq, decide_eq_true_eq, hlow, hhigh]
    exact ⟨fun h => ⟨h.1, h.2, fun hodd => by omega⟩, fun h => ⟨h.ge, h.le⟩⟩
  next hodd =>
    rw [Bool.and_eq_true, decide_eq_true_eq, decide_eq_true_eq, ← not_le, ← not_le, hlow', hhigh',
      not_le, not_le]
    exact ⟨fun h => ⟨h.1.le, h.2.le, fun _ => h⟩, fun h => h.odd (by omega)⟩

/-! ## §2 The multiples around a double -/

theorem cast_mantissa (v : Magnitude) :
    ((v.mantissa * 2 ^ v.exponent.toNat : ℕ) : ℚ) = v.val * 2 ^ (-v.exponent).toNat := by
  rw [val, mul_assoc, zpow_mul_pow_neg two_ne_zero]
  push_cast
  rfl

/-- The quotient is that of two whole numbers in the ratio of the double to the power of ten. -/
theorem quotient_eq (v : Magnitude) (a : ℤ) :
    ∃ (n k : ℕ) (c : ℚ), v.quotient a = n / k ∧ 0 < k ∧ 0 < c ∧ (n : ℚ) = v.val * c ∧
      (k : ℚ) = 10 ^ a * c := by
  refine ⟨v.mantissa * 2 ^ v.exponent.toNat * 10 ^ (-a).toNat,
    2 ^ (-v.exponent).toNat * 10 ^ a.toNat, 2 ^ (-v.exponent).toNat * 10 ^ (-a).toNat, rfl,
    by positivity, by positivity, ?_, ?_⟩
  · rw [Nat.cast_mul, cast_mantissa, mul_assoc]
    push_cast
    rfl
  · push_cast
    rw [← zpow_mul_pow_neg (by norm_num) a]
    ring

theorem quotient_le (v : Magnitude) (a : ℤ) : v.quotient a * 10 ^ a ≤ v.val := by
  obtain ⟨n, k, c, hquotient, hk, hc, hn, hkc⟩ := v.quotient_eq a
  have hle : ((n / k * k : ℕ) : ℚ) ≤ n := Nat.cast_le.2 (Nat.div_mul_le_self n k)
  rw [hn, Nat.cast_mul, hkc, ← mul_assoc, mul_le_mul_iff_left₀ hc] at hle
  rwa [hquotient]

theorem lt_quotient (v : Magnitude) (a : ℤ) : v.val < (v.quotient a + 1) * 10 ^ a := by
  obtain ⟨n, k, c, hquotient, hk, hc, hn, hkc⟩ := v.quotient_eq a
  have hlt : (n : ℚ) < ((n / k + 1) * k : ℕ) :=
    Nat.cast_lt.2 ((Nat.div_lt_iff_lt_mul hk).1 (Nat.lt_succ_self _))
  rw [hn, Nat.cast_mul, hkc, ← mul_assoc, mul_lt_mul_iff_left₀ hc] at hlt
  rw [hquotient]
  exact_mod_cast hlt

theorem tenPow_place_le {n k : ℕ} (hn : 0 < n) (hk : 0 < k) :
    (10 : ℚ) ^ ((if k ≤ n then (Decimal.digitCount (n / k) : ℤ)
      else 1 - Decimal.digitCount ((k - 1) / n)) - 1) ≤ n / k := by
  have hk' : (0 : ℚ) < k := Nat.cast_pos.2 hk
  rw [le_div_iff₀ hk']
  split
  next hle =>
    have hten := Decimal.tenPow_le_of_pos (Nat.div_pos hle hk)
    have hcount : 0 < Decimal.digitCount (n / k) := Nat.length_toDigits_pos
    rw [Nat.le_div_iff_mul_le hk] at hten
    rw [← Nat.cast_pred hcount, zpow_natCast]
    exact_mod_cast hten
  next hlt =>
    have hten := Decimal.lt_tenPow_digitCount ((k - 1) / n)
    rw [Nat.div_lt_iff_lt_mul hn] at hten
    have hle : k ≤ 10 ^ Decimal.digitCount ((k - 1) / n) * n := by omega
    rw [sub_sub_cancel_left, zpow_neg, zpow_natCast, inv_mul_le_iff₀ (by positivity)]
    exact_mod_cast hle

theorem tenPow_leadingPlace_le (hv : v.IsDouble) : 10 ^ (v.leadingPlace - 1) ≤ v.val := by
  have hk : (0 : ℚ) < 2 ^ (-v.exponent).toNat := by positivity
  have hle := tenPow_place_le (Nat.mul_pos hv.pos (Nat.two_pow_pos v.exponent.toNat))
    (Nat.two_pow_pos (-v.exponent).toNat)
  have hval : ((v.mantissa * 2 ^ v.exponent.toNat : ℕ) : ℚ) / (2 ^ (-v.exponent).toNat : ℕ) =
      v.val := by
    rw [cast_mantissa, Nat.cast_pow, Nat.cast_ofNat, mul_div_cancel_right₀ _ hk.ne']
  rw [hval] at hle
  exact hle

/-- The unit of a double is larger than the step between its multiples of a power of ten with
seventeen digits. -/
theorem step_lt (hv : v.IsDouble) {a : ℤ} (ha : 10 ^ (a + 16) ≤ v.val) :
    (10 : ℚ) ^ a < 2 ^ v.exponent ∧ (v.mantissa = 2 ^ 52 → (10 : ℚ) ^ a < 2 ^ v.exponent / 2) := by
  have hunit : (0 : ℚ) < 2 ^ v.exponent := zpow_pos two_pos _
  have hstep : (10 : ℚ) ^ a * 10 ^ 16 ≤ v.mantissa * 2 ^ v.exponent := by
    rw [← zpow_natCast, ← zpow_add₀ (by norm_num)]
    exact ha
  have hm : (v.mantissa : ℚ) < 2 ^ 53 := by exact_mod_cast hv.lt
  have hmul : (v.mantissa : ℚ) * 2 ^ v.exponent < 2 ^ 53 * 2 ^ v.exponent :=
    mul_lt_mul_of_pos_right hm hunit
  constructor
  · norm_num at hstep hmul
    linarith
  · intro heq
    rw [heq] at hstep
    norm_num at hstep
    linarith

/-- If the multiples are dense enough, one of the two around the double is in the interval. -/
theorem exists_nearestMultiple (hv : v.IsDouble) {a : ℤ} (ha : 10 ^ (a + 16) ≤ v.val) :
    ∃ d, v.nearestMultiple? a = some d := by
  have hunit : (0 : ℚ) < 2 ^ v.exponent := zpow_pos two_pos _
  have hle := v.quotient_le a
  have hlt := v.lt_quotient a
  obtain ⟨hstep, hsmall⟩ := step_lt hv ha
  have hlower : v.lower = v.val - v.lowerGap / 4 * 2 ^ v.exponent := by
    rw [lower, val]
    ring
  have hupper : v.upper = v.val + 1 / 2 * 2 ^ v.exponent := by
    rw [upper, val]
    ring
  have hinside {x : ℚ} (hlow : v.lower < x) (hhigh : x < v.upper) : v.Holds x :=
    ⟨hlow.le, hhigh.le, fun _ => ⟨hlow, hhigh⟩⟩
  have hone : v.Holds (⟨v.quotient a, a⟩ : Decimal).val ∨
      v.Holds (⟨v.quotient a + 1, a⟩ : Decimal).val := by
    have hval : (⟨v.quotient a, a⟩ : Decimal).val = v.quotient a * 10 ^ a := rfl
    have hval' : (⟨v.quotient a + 1, a⟩ : Decimal).val = v.quotient a * 10 ^ a + 10 ^ a := by
      rw [Decimal.val, Nat.cast_succ, add_one_mul]
    rw [add_one_mul] at hlt
    rw [hval, hval']
    have hgap : v.lowerGap = 1 ∧ v.mantissa = 2 ^ 52 ∨ v.lowerGap = 2 := by
      unfold lowerGap
      split
      next h => exact .inl ⟨rfl, h.1⟩
      next => exact .inr rfl
    rcases hgap with ⟨hgap, hm⟩ | hgap
    · have hhalf := hsmall hm
      refine .inr (hinside ?_ ?_)
      · rw [hlower, hgap]
        push_cast
        linarith
      · rw [hupper]
        linarith
    · rw [hgap] at hlower
      push_cast at hlower
      by_cases hnear : v.val - v.quotient a * 10 ^ a < 1 / 2 * 2 ^ v.exponent
      · exact .inl (hinside (by rw [hlower]; linarith) (by rw [hupper]; linarith))
      · exact .inr (hinside (by rw [hlower]; linarith) (by rw [hupper]; linarith))
  rw [← Option.isSome_iff_exists, nearestMultiple?, List.find?_isSome]
  rcases hone with h | h
  · exact ⟨_, by split <;> simp, (encloses_iff hv _).2 h⟩
  · exact ⟨_, by split <;> simp, (encloses_iff hv _).2 h⟩

/-! ## §3 The search -/

theorem val_trimmed (d : Decimal) : d.trimmed.val = d.val := by
  fun_induction Decimal.trimmed d with
  | case1 d h ih =>
    rw [ih, Decimal.val, Decimal.val]
    have hten : (d.coefficient : ℚ) = (d.coefficient / 10 : ℕ) * 10 := by
      exact_mod_cast (Nat.div_mul_cancel (Nat.dvd_of_mod_eq_zero h.2)).symm
    rw [hten, zpow_add_one₀ (by norm_num)]
    ring
  | case2 d h => rfl

theorem holds_of_nearestMultiple (hv : v.IsDouble) {a : ℤ} {d : Decimal}
    (h : v.nearestMultiple? a = some d) : v.Holds d.val :=
  (encloses_iff hv d).1 (List.find?_some h)

theorem holds_shortest (hv : v.IsDouble) : v.Holds v.shortest.val := by
  have hdense : (10 : ℚ) ^ (v.leadingPlace - ((16 + 1 : ℕ) : ℤ) + 16) ≤ v.val := by
    have hsum : v.leadingPlace - ((16 + 1 : ℕ) : ℤ) + 16 = v.leadingPlace - 1 := by omega
    rw [hsum]
    exact tenPow_leadingPlace_le hv
  obtain ⟨d, hd⟩ := exists_nearestMultiple hv hdense
  have hsome : ((List.range 17).findSome? fun n =>
      v.nearestMultiple? (v.leadingPlace - (n + 1 : ℕ))).isSome = true := by
    rw [List.findSome?_isSome_iff]
    exact ⟨16, by simp, by rw [hd]; rfl⟩
  obtain ⟨found, hfound⟩ := Option.isSome_iff_exists.1 hsome
  obtain ⟨n, -, hn⟩ := List.exists_of_findSome?_eq_some hfound
  rw [shortest, hfound, Option.getD_some, val_trimmed]
  exact holds_of_nearestMultiple hv hn

end Magnitude

end MatrixCalc
