import MatrixCalc.Proofs.Decimal.Units

/-!
# Quotients that are rounded to zero

A number other than zero can be rounded to zero: those of up to half of the smallest double are, and
no others (`roundWithAccuracy_eq_zero`, `exists_roundWithAccuracy`). So the quotient of two doubles
is zero exactly if the first is at most `2 ^ (-1075)` times as large as the second
(`isZero_div_iff`), which includes doubles that are not zero.

§1 the nearest whole number · §2 rounding to zero · §3 quotients
-/

namespace MatrixCalc

open Float.Model Float.Model.UnpackedFloat

open Scalar (HasFinite)

/-! ## §1 The nearest whole number -/

theorem StandsAt.isNearest {x : ℚ} {m : ℕ} {acc : Accuracy} (h : StandsAt x m acc) :
    IsNearest x (acc.roundToNearestEven m) := by
  have hsucc : ((m + 1 : ℕ) : ℚ) = m + 1 := Nat.cast_succ m
  unfold StandsAt at h
  split at h
  · show IsNearest x m
    exact ⟨by linarith, by linarith, fun _ => ⟨by linarith, by linarith⟩⟩
  · show IsNearest x m
    exact ⟨by linarith, by linarith, fun _ => ⟨by linarith, by linarith⟩⟩
  · -- of the two whole numbers as near the even one is taken
    show IsNearest x (m + m % 2)
    rcases Nat.mod_two_eq_zero_or_one m with heven | hodd
    · rw [heven, add_zero]
      exact ⟨by linarith, by linarith, fun h => by omega⟩
    · rw [hodd]
      exact ⟨by linarith, by linarith, fun h => by omega⟩
  · show IsNearest x (m + 1)
    exact ⟨by linarith, by linarith, fun _ => ⟨by linarith, by linarith⟩⟩

section Round

variable {s : Sign} {m : ℕ} {e t : ℤ} {acc : Accuracy} {x : ℚ}

/-- In a larger unit there is a nearest whole number as well. -/
theorem exists_isNearest (he : e ≤ t) (hx : StandsAt (x / 2 ^ e) m acc) :
    ∃ k, IsNearest (x / 2 ^ t) k := by
  have hexp : e + (t - e).toNat = t := by omega
  have hscale : x / 2 ^ e / 2 ^ (t - e).toNat = x / 2 ^ t := by
    rw [div_div, ← zpow_natCast (2 : ℚ), ← zpow_add₀ two_ne_zero, hexp]
  have hplace := (hx.ofMantissaAndAccuracy).shiftRight (t - e).toNat
  rw [hscale] at hplace
  exact ⟨_, hplace.isNearest⟩

/-! ## §2 Rounding to zero -/

/-- Up to half of the smallest double is rounded to zero. -/
theorem roundWithAccuracy_eq_zero (hx : StandsAt (x / 2 ^ e) m acc)
    (he : e ≤ Format.binary64.targetExponent (totalExponent m e)) (hsmall : x ≤ 2 ^ (-1075 : ℤ)) :
    roundWithAccuracy Format.binary64 s m e acc = .zero s := by
  have hunit : (0 : ℚ) < 2 ^ e := zpow_pos two_pos e
  have hpos : 0 ≤ x / 2 ^ e := (Nat.cast_nonneg m).trans hx.bounds.1
  have hx0 : 0 ≤ x := by
    rw [← div_mul_cancel₀ x hunit.ne']
    exact mul_nonneg hpos hunit.le
  obtain ⟨t, ht⟩ : ∃ t, Format.binary64.targetExponent (totalExponent m e) = t := ⟨_, rfl⟩
  rw [ht] at he
  have hmin : -1074 ≤ t := ht ▸ targetExponent_eq m e ▸ le_max_right _ _
  have htmin : t = -1074 := by
    refine (le_of_targetExponent ht he hx).resolve_right fun hle => ?_
    have hexp := (zpow_le_zpow_iff_right₀ one_lt_two).1 (hle.trans hsmall)
    omega
  have hhalf : x / 2 ^ t ≤ 1 / 2 := by
    rw [htmin, div_le_iff₀ (zpow_pos two_pos _)]
    refine hsmall.trans_eq ?_
    rw [one_div, ← zpow_neg_one, ← zpow_add₀ two_ne_zero]
    norm_num
  have hnearest : IsNearest (x / 2 ^ t) 0 := by
    refine ⟨?_, by rw [Nat.cast_zero, zero_add]; exact hhalf, fun h => by omega⟩
    have hnonneg : 0 ≤ x / 2 ^ t := div_nonneg hx0 (zpow_pos two_pos t).le
    rw [Nat.cast_zero]
    linarith
  obtain ⟨hround, hexp⟩ := roundedMantissa_eq ht he hx hnearest
  simp only [roundWithAccuracy, hround, hexp, shiftToTargetExponent_of_lt (Nat.two_pow_pos 53) hmin,
    dif_pos]

/-- What is more than half of the smallest double is rounded to a mantissa that has all of its
digits, or to one in the smallest unit. -/
theorem exists_roundWithAccuracy (hx : StandsAt (x / 2 ^ e) m acc)
    (he : e ≤ Format.binary64.targetExponent (totalExponent m e)) (hlarge : 2 ^ (-1075 : ℤ) < x) :
    ∃ k u, ∃ hk : 0 < k, roundWithAccuracy Format.binary64 s m e acc = .finite s k u hk ∧
      k < 2 ^ 53 ∧ -1074 ≤ u ∧ (-1074 < u → 2 ^ 52 ≤ k) := by
  obtain ⟨t, ht⟩ : ∃ t, Format.binary64.targetExponent (totalExponent m e) = t := ⟨_, rfl⟩
  rw [ht] at he
  have hmin : -1074 ≤ t := ht ▸ targetExponent_eq m e ▸ le_max_right _ _
  have hunit : (0 : ℚ) < 2 ^ t := zpow_pos two_pos t
  obtain ⟨k, hk⟩ := exists_isNearest he hx
  have hle : k ≤ 2 ^ 53 := by
    have hlt := lt_of_targetExponent ht hx
    rw [add_comm, zpow_add₀ two_ne_zero, ← div_lt_iff₀ hunit] at hlt
    have hcast : (k : ℚ) < (2 ^ 53 + 1 : ℕ) := by
      have hge := hk.ge
      have hpow : ((2 ^ 53 + 1 : ℕ) : ℚ) = 2 ^ (53 : ℤ) + 1 := by norm_num
      linarith
    have hlt' : k < 2 ^ 53 + 1 := Nat.cast_lt.1 hcast
    omega
  have hnormal (htmin : -1074 < t) : 2 ^ 52 ≤ k := by
    have hge := (le_of_targetExponent ht he hx).resolve_left (by omega)
    rw [add_comm, zpow_add₀ two_ne_zero, ← le_div_iff₀ hunit] at hge
    have hcast : ((2 ^ 52 : ℕ) : ℚ) < (k + 1 : ℕ) := by
      have hle := hk.le
      have hpow : ((2 ^ 52 : ℕ) : ℚ) = 2 ^ (52 : ℤ) := by norm_num
      rw [hpow, Nat.cast_succ]
      linarith
    have hlt : 2 ^ 52 < k + 1 := Nat.cast_lt.1 hcast
    omega
  have hpos : 0 < k := by
    rcases hmin.eq_or_lt with hmin | hmin
    · refine Nat.pos_of_ne_zero fun hzero => ?_
      have hhalf := hk.le
      rw [hzero, ← hmin, div_le_iff₀ (zpow_pos two_pos _)] at hhalf
      refine absurd hhalf (not_le.2 (hlarge.trans_eq' ?_))
      rw [Nat.cast_zero, zero_add, one_div, ← zpow_neg_one, ← zpow_add₀ two_ne_zero]
      norm_num
    · exact (Nat.two_pow_pos 52).trans_le (hnormal hmin)
  rcases hle.eq_or_lt with rfl | hlt
  · exact ⟨2 ^ 52, t + 1, Nat.two_pow_pos 52, roundWithAccuracy_full ht he hx hk, by norm_num,
      by omega, fun _ => le_rfl⟩
  · exact ⟨k, t, hpos, roundWithAccuracy_of_lt ht he hx hk hpos hlt, hlt, hmin, hnormal⟩

end Round

/-! ## §3 Quotients -/

/-- The absolute value of a double, as a number. -/
def absValue (x : Float) : ℚ :=
  match x.toModel.unpack with
  | .finite _ m e _ => m * 2 ^ e
  | _ => 0

section Quotient

variable {x y : Float} {s : Sign} {m : ℕ} {e : ℤ} {hm : 0 < m}

theorem absValue_of_unpack (hx : x.toModel.unpack = .finite s m e hm) :
    absValue x = m * 2 ^ e := by
  rw [absValue, hx]

theorem absValue_of_isZero (hx : Scalar.isZero x = true) : absValue x = 0 := by
  obtain ⟨s, hx⟩ := isZero_iff_unpack.1 hx
  rw [absValue, hx]

/-- What has been rounded to a mantissa other than zero is not read as a zero. -/
theorem unpack_pack_ne_zero {k : ℕ} {u : ℤ} (hk : 0 < k) (hlt : k < 2 ^ 53) (hu : -1074 ≤ u)
    (hnormal : -1074 < u → 2 ^ 52 ≤ k) (s t : Sign) :
    (Float.Model.pack (.finite s k u hk)).unpack ≠ .zero t := by
  by_cases hmax : u ≤ 971
  · rw [unpack_pack (v := ⟨k, u⟩) ⟨hk, hlt, hu, hmax, hnormal⟩ s]
    exact nofun
  · -- beyond the largest double, what is read is an infinity
    have hsum : u + Format.binary64.exponentBias + Format.binary64.mantissaBitsWithoutImplicit =
        u + 1075 := by
      rw [add_assoc]
      rfl
    have hlarge : 2 ^ Format.binary64.exponentBits ≤ (u + 1075).toNat + 1 := by
      show 2 ^ 11 ≤ (u + 1075).toNat + 1
      omega
    have hinfinity : UnpackedFloat.pack Format.binary64 (.finite s k u hk) =
        UnpackedFloat.pack Format.binary64 (.infinity s) := by
      simp only [UnpackedFloat.pack, hsum, hlarge, if_true]
    show UnpackedFloat.unpack Format.binary64
      (UnpackedFloat.pack Format.binary64 (.finite s k u hk)) ≠ _
    rw [hinfinity]
    cases s <;> exact nofun

/-- A quotient is zero exactly if it is at most half of the smallest double. -/
theorem isZero_div_iff (hx : HasFinite.IsFinite x) (hy : HasFinite.IsFinite y)
    (hne : Scalar.isZero y = false) :
    Scalar.isZero (x / y) = true ↔ absValue x * 2 ^ 1075 ≤ absValue y := by
  obtain ⟨t, n, f, hn, hyu⟩ := exists_unpack hy hne
  rcases isZero_or_unpack hx with hzero | ⟨s, m, e, hm, hxu⟩
  · have hnonneg : 0 ≤ absValue y := by
      rw [absValue_of_unpack hyu]
      positivity
    rw [absValue_of_isZero hzero, zero_mul]
    exact iff_of_true (isZero_double_zero_div hzero hy hne) hnonneg
  · obtain ⟨hplace, hexponent⟩ := divCore_spec hm hn e f
    have hscale : absValue x * 2 ^ 1075 ≤ absValue y ↔
        (m * 2 ^ e / (n * 2 ^ f) : ℚ) ≤ 2 ^ (-1075 : ℤ) := by
      have hpos : (0 : ℚ) < n * 2 ^ f := mul_pos (Nat.cast_pos.2 hn) (zpow_pos two_pos f)
      rw [absValue_of_unpack hxu, absValue_of_unpack hyu, div_le_iff₀ hpos, zpow_neg,
        ← div_eq_inv_mul, le_div_iff₀ (zpow_pos two_pos _)]
      rfl
    have hquotient : (x / y).toModel.unpack = (Float.Model.pack (roundWithAccuracy Format.binary64
        (s / t) (divCore Format.binary64 m e n f).1 (divCore Format.binary64 m e n f).2.1
        (divCore Format.binary64 m e n f).2.2)).unpack := by
      rw [unpack_div, hxu, hyu]
      rfl
    rw [hscale, isZero_iff_unpack, hquotient]
    refine ⟨fun ⟨u, hu⟩ => not_lt.1 fun hlarge => ?_, fun hsmall => ⟨s / t, ?_⟩⟩
    · obtain ⟨k, w, hk, hround, hlt, hw, hnormal⟩ :=
        exists_roundWithAccuracy (s := s / t) hplace hexponent hlarge
      rw [hround] at hu
      exact unpack_pack_ne_zero hk hlt hw hnormal _ u hu
    · rw [roundWithAccuracy_eq_zero hplace hexponent hsmall]
      exact unpack_pack_zero _

end Quotient

end MatrixCalc
