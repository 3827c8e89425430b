import Mathlib
import MatrixCalc.Decimal.Shortest

/-!
# Rounding to doubles

A number is rounded from a whole number below it, in some unit, and from where it stands between
that one and the next. Every number of the interval around a double is rounded to that double
(`roundWithAccuracy_of_holds`).

§1 places between whole numbers · §2 the interval of a double · §3 rounding
-/

namespace MatrixCalc

open Float.Model Float.Model.UnpackedFloat

/-! ## §1 Places between whole numbers -/

/-- Where a number stands from a whole number on. -/
def StandsAt (x : ℚ) (m : ℕ) : Accuracy → Prop
  | .exact => x = m
  | .inexact .lt => m < x ∧ x < m + 1 / 2
  | .inexact .eq => x = m + 1 / 2
  | .inexact .gt => m + 1 / 2 < x ∧ x < m + 1

/-- A whole number that is nearest to `x`, and even if there are two. -/
structure IsNearest (x : ℚ) (k : ℕ) : Prop where
  ge : k - 1 / 2 ≤ x
  le : x ≤ k + 1 / 2
  odd : k % 2 = 1 → k - 1 / 2 < x ∧ x < k + 1 / 2

theorem StandsAt.bounds {x : ℚ} {m : ℕ} {acc : Accuracy} (h : StandsAt x m acc) :
    m ≤ x ∧ x < m + 1 := by
  unfold StandsAt at h
  split at h
  · constructor <;> linarith
  · constructor <;> linarith
  · constructor <;> linarith
  · constructor <;> linarith

theorem StandsAt.round_eq {x : ℚ} {m k : ℕ} {acc : Accuracy} (h : StandsAt x m acc)
    (hk : IsNearest x k) : acc.roundToNearestEven m = k := by
  obtain ⟨hge, hle, hodd⟩ := hk
  unfold StandsAt at h
  split at h
  · subst h
    have hkm : (k : ℚ) < m + 1 := by linarith
    have hmk : (m : ℚ) < k + 1 := by linarith
    norm_cast at hkm hmk
    show m = k
    omega
  · have hkm : (k : ℚ) < m + 1 := by linarith
    have hmk : (m : ℚ) < k + 1 := by linarith
    norm_cast at hkm hmk
    show m = k
    omega
  · have hkm : (k : ℚ) < m + 2 := by linarith
    have hmk : (m : ℚ) < k + 1 := by linarith
    norm_cast at hkm hmk
    show m + m % 2 = k
    -- of the two whole numbers as near the even one is taken
    have hcases : k = m ∨ k = m + 1 := by omega
    rcases hcases with rfl | rfl
    · have heven : k % 2 ≠ 1 := fun hk => by linarith [(hodd hk).2]
      omega
    · have heven : (m + 1) % 2 ≠ 1 := fun hk => by
        have hlt := (hodd hk).1
        push_cast at hlt
        linarith
      omega
  · have hkm : (k : ℚ) < m + 2 := by linarith
    have hmk : (m : ℚ) < k := by linarith
    norm_cast at hkm hmk
    show m + 1 = k
    omega

theorem StandsAt.ofMantissaAndAccuracy {x : ℚ} {m : ℕ} {acc : Accuracy} (h : StandsAt x m acc) :
    let em := ExtendedMantissa.ofMantissaAndAccuracy m acc
    StandsAt x em.mantissa em.accuracy := by
  unfold StandsAt at h
  split at h <;> exact h

/-- The same place in the doubled unit: the bit that drops out says in which half it is. -/
theorem StandsAt.shiftRightOne {x : ℚ} {em : ExtendedMantissa}
    (h : StandsAt x em.mantissa em.accuracy) :
    StandsAt (x / 2) em.shiftRightOne.mantissa em.shiftRightOne.accuracy := by
  obtain ⟨m, round, sticky⟩ := em
  obtain ⟨k, hm | hm⟩ := Nat.even_or_odd' m
  · have hk : (2 * k) / 2 = k := by omega
    have hbit : ((2 * k) % 2 != 0) = false := by simp
    subst hm
    simp only [ExtendedMantissa.shiftRightOne, hk, hbit]
    cases round <;> cases sticky <;>
      simp only [StandsAt, ExtendedMantissa.accuracy, Nat.cast_mul, Nat.cast_ofNat, Bool.or_false,
        Bool.or_true] at h ⊢ <;> first | linarith | (constructor <;> linarith)
  · have hk : (2 * k + 1) / 2 = k := by omega
    have hbit : ((2 * k + 1) % 2 != 0) = true := by simp [Nat.add_mod]
    subst hm
    simp only [ExtendedMantissa.shiftRightOne, hk, hbit]
    cases round <;> cases sticky <;>
      simp only [StandsAt, ExtendedMantissa.accuracy, Nat.cast_add, Nat.cast_mul, Nat.cast_ofNat,
        Nat.cast_one, Bool.or_false, Bool.or_true] at h ⊢ <;>
      first | linarith | (constructor <;> linarith)

theorem StandsAt.shiftRight {x : ℚ} {em : ExtendedMantissa}
    (h : StandsAt x em.mantissa em.accuracy) (n : ℕ) :
    StandsAt (x / 2 ^ n) (em >>> n).mantissa (em >>> n).accuracy := by
  induction n with
  | zero =>
    rw [pow_zero, div_one]
    exact h
  | succ n ih =>
    rw [pow_succ, ← div_div]
    exact ih.shiftRightOne

/-! ## §2 The interval of a double -/

namespace Magnitude

/-- The mantissa and exponent of a finite double other than zero. -/
structure IsDouble (v : Magnitude) : Prop where
  pos : 0 < v.mantissa
  lt : v.mantissa < 2 ^ 53
  exponent_ge : -1074 ≤ v.exponent
  exponent_le : v.exponent ≤ 971
  normal : -1074 < v.exponent → 2 ^ 52 ≤ v.mantissa

def lower (v : Magnitude) : ℚ := (v.mantissa - v.lowerGap / 4) * 2 ^ v.exponent

def upper (v : Magnitude) : ℚ := (v.mantissa + 1 / 2) * 2 ^ v.exponent

/-- The numbers in the interval; its ends are in it if the mantissa is even. -/
structure Holds (v : Magnitude) (x : ℚ) : Prop where
  ge : v.lower ≤ x
  le : x ≤ v.upper
  odd : v.mantissa % 2 = 1 → v.lower < x ∧ x < v.upper

end Magnitude

/-! ## §3 Rounding -/

/-- The unit in which a number is rounded. -/
theorem targetExponent_eq (m : ℕ) (e : ℤ) :
    Format.binary64.targetExponent (totalExponent m e) = max (m.log2 + e - 52) (-1074) := by
  have hmin : Format.binary64.minExponent = -1074 := by decide
  have hbits : (Format.binary64.mantissaBits : ℤ) = 53 := by decide
  rw [Format.targetExponent, totalExponent, hmin, hbits]
  congr 1
  ring

theorem shiftToTargetExponent_of_lt {k : ℕ} (hk : k < 2 ^ 53) {t : ℤ} (ht : -1074 ≤ t) :
    shiftToTargetExponent Format.binary64 k t .exact = (⟨k, false, false⟩, t) := by
  have hlog : k.log2 < 53 := by
    rcases Nat.eq_zero_or_pos k with rfl | hpos
    · decide
    · exact (Nat.log2_lt hpos.ne').2 hk
  have hshift : (Format.binary64.targetExponent (totalExponent k t) - t).toNat = 0 := by
    rw [targetExponent_eq]
    omega
  simp only [shiftToTargetExponent, shiftToExponent, hshift]
  refine Prod.ext rfl ?_
  show t + 0 = t
  omega

/-- A mantissa that has become too large by rounding is halved. -/
theorem shiftToTargetExponent_full {t : ℤ} (ht : -1074 ≤ t) :
    shiftToTargetExponent Format.binary64 (2 ^ 53) t .exact = (⟨2 ^ 52, false, false⟩, t + 1) := by
  have hshift : (Format.binary64.targetExponent (totalExponent (2 ^ 53) t) - t).toNat = 1 := by
    rw [targetExponent_eq, Nat.log2_two_pow]
    omega
  simp only [shiftToTargetExponent, shiftToExponent, hshift]
  rfl

section Round

variable {s : Sign} {m k : ℕ} {e t : ℤ} {acc : Accuracy} {x : ℚ}

/-- The first shift and the rounding of the mantissa. -/
theorem roundedMantissa_eq (ht : Format.binary64.targetExponent (totalExponent m e) = t)
    (he : e ≤ t) (hx : StandsAt (x / 2 ^ e) m acc) (hk : IsNearest (x / 2 ^ t) k) :
    (shiftToTargetExponent Format.binary64 m e acc).1.roundedMantissa = k ∧
      (shiftToTargetExponent Format.binary64 m e acc).2 = t := by
  have hexp : e + (t - e).toNat = t := by omega
  have hscale : x / 2 ^ e / 2 ^ (t - e).toNat = x / 2 ^ t := by
    rw [div_div, ← zpow_natCast (2 : ℚ), ← zpow_add₀ two_ne_zero, hexp]
  have hplace := (hx.ofMantissaAndAccuracy).shiftRight (t - e).toNat
  rw [hscale] at hplace
  simp only [shiftToTargetExponent, shiftToExponent, ht, hexp]
  exact ⟨hplace.round_eq hk, trivial⟩

theorem roundWithAccuracy_of_lt (ht : Format.binary64.targetExponent (totalExponent m e) = t)
    (he : e ≤ t) (hx : StandsAt (x / 2 ^ e) m acc) (hk : IsNearest (x / 2 ^ t) k)
    (hpos : 0 < k) (hlt : k < 2 ^ 53) :
    roundWithAccuracy Format.binary64 s m e acc = .finite s k t hpos := by
  have hmin : -1074 ≤ t := ht ▸ targetExponent_eq m e ▸ le_max_right _ _
  obtain ⟨hround, hexp⟩ := roundedMantissa_eq ht he hx hk
  simp only [roundWithAccuracy, hround, hexp, shiftToTargetExponent_of_lt hlt hmin, hpos.ne',
    dif_neg, not_false_eq_true]

theorem roundWithAccuracy_full (ht : Format.binary64.targetExponent (totalExponent m e) = t)
    (he : e ≤ t) (hx : StandsAt (x / 2 ^ e) m acc) (hk : IsNearest (x / 2 ^ t) (2 ^ 53)) :
    roundWithAccuracy Format.binary64 s m e acc =
      .finite s (2 ^ 52) (t + 1) (Nat.two_pow_pos 52) := by
  have hmin : -1074 ≤ t := ht ▸ targetExponent_eq m e ▸ le_max_right _ _
  obtain ⟨hround, hexp⟩ := roundedMantissa_eq ht he hx hk
  simp only [roundWithAccuracy, hround, hexp, shiftToTargetExponent_full hmin]
  rfl

/-- The unit is large enough: the number has at most 53 binary digits before it. -/
theorem lt_of_targetExponent (ht : Format.binary64.targetExponent (totalExponent m e) = t)
    (hx : StandsAt (x / 2 ^ e) m acc) : x < 2 ^ (t + 53) := by
  have hunit : (0 : ℚ) < 2 ^ e := zpow_pos two_pos e
  have hm : ((m + 1 : ℕ) : ℚ) ≤ ((2 ^ (m.log2 + 1) : ℕ) : ℚ) := Nat.cast_le.2 Nat.lt_log2_self
  have hle : (m.log2 + 1 : ℕ) + e ≤ t + 53 := by
    rw [← ht, targetExponent_eq]
    omega
  calc x < (m + 1) * 2 ^ e := (div_lt_iff₀ hunit).1 hx.bounds.2
    _ ≤ 2 ^ ((m.log2 + 1 : ℕ) : ℤ) * 2 ^ e := by
      refine mul_le_mul_of_nonneg_right ?_ hunit.le
      rw [zpow_natCast]
      exact_mod_cast hm
    _ = 2 ^ ((m.log2 + 1 : ℕ) + e) := (zpow_add₀ two_ne_zero _ _).symm
    _ ≤ 2 ^ (t + 53) := zpow_le_zpow_right₀ one_le_two hle

/-- It is not larger, unless it is the smallest of all. -/
theorem le_of_targetExponent (ht : Format.binary64.targetExponent (totalExponent m e) = t)
    (he : e ≤ t) (hx : StandsAt (x / 2 ^ e) m acc) : t = -1074 ∨ 2 ^ (t + 52) ≤ x := by
  have hunit : (0 : ℚ) < 2 ^ e := zpow_pos two_pos e
  rw [targetExponent_eq] at ht
  refine or_iff_not_imp_left.2 fun hmin => ?_
  have hsum : t + 52 = m.log2 + e := by omega
  have hne : m ≠ 0 := by
    rintro rfl
    simp at hsum
    omega
  calc (2 : ℚ) ^ (t + 52) = 2 ^ (m.log2 : ℤ) * 2 ^ e := by rw [hsum, zpow_add₀ two_ne_zero]
    _ ≤ m * 2 ^ e := by
      refine mul_le_mul_of_nonneg_right ?_ hunit.le
      rw [zpow_natCast]
      exact_mod_cast Nat.log2_self_le hne
    _ ≤ x := (le_div_iff₀ hunit).1 hx.bounds.1

end Round

namespace Magnitude

variable {v : Magnitude} {x : ℚ}

theorem lowerGap_le (v : Magnitude) : (v.lowerGap : ℚ) ≤ 2 := by
  unfold lowerGap
  split <;> norm_num

/-- In the unit of the double its mantissa is the nearest whole number. -/
theorem Holds.isNearest (hx : v.Holds x) : IsNearest (x / 2 ^ v.exponent) v.mantissa := by
  have hunit : (0 : ℚ) < 2 ^ v.exponent := zpow_pos two_pos _
  have hgap := v.lowerGap_le
  obtain ⟨hge, hle, hodd⟩ := hx
  unfold lower at hge hodd
  unfold upper at hle hodd
  rw [← le_div_iff₀ hunit] at hge
  rw [← div_le_iff₀ hunit] at hle
  refine ⟨by linarith, hle, fun h => ?_⟩
  obtain ⟨hgt, hlt⟩ := hodd h
  rw [← lt_div_iff₀ hunit] at hgt
  rw [← div_lt_iff₀ hunit] at hlt
  exact ⟨by linarith, hlt⟩

/-- A number of the interval has no more binary digits than the double. -/
theorem Holds.lt_two_zpow (hv : v.IsDouble) (hx : v.Holds x) : x < 2 ^ (v.exponent + 53) := by
  have hm : ((v.mantissa + 1 : ℕ) : ℚ) ≤ ((2 ^ 53 : ℕ) : ℚ) := Nat.cast_le.2 hv.lt
  have hunit : (0 : ℚ) < 2 ^ v.exponent := zpow_pos two_pos _
  calc x ≤ (v.mantissa + 1 / 2) * 2 ^ v.exponent := hx.le
    _ < 2 ^ (53 : ℤ) * 2 ^ v.exponent := by
      refine mul_lt_mul_of_pos_right ?_ hunit
      push_cast at hm
      norm_num at hm ⊢
      linarith
    _ = 2 ^ (v.exponent + 53) := by rw [← zpow_add₀ two_ne_zero, add_comm]

/-- The interval around a power of two begins in the smaller unit below that power. -/
theorem Holds.of_lt (hv : v.IsDouble) (hx : v.Holds x) {t : ℤ} (hmin : -1074 ≤ t)
    (ht : t < v.exponent) (hlt : x < 2 ^ (t + 53)) :
    v = ⟨2 ^ 52, t + 1⟩ ∧ IsNearest (x / 2 ^ t) (2 ^ 53) := by
  obtain ⟨m, e⟩ := v
  replace ht : t < e := ht
  have hunit : (0 : ℚ) < 2 ^ e := zpow_pos two_pos _
  have hlow : m - 1 / 2 ≤ x / 2 ^ e := hx.isNearest.ge
  have hbelow (n : ℕ) (hn : t + 53 ≤ e + n) : x / 2 ^ e < 2 ^ n := by
    rw [div_lt_iff₀ hunit, ← zpow_natCast, ← zpow_add₀ two_ne_zero, add_comm]
    exact hlt.trans_le (zpow_le_zpow_right₀ one_le_two hn)
  have hm : m = 2 ^ 52 := by
    have hge : 2 ^ 52 ≤ m := hv.normal (hmin.trans_lt ht)
    have hle : (m : ℚ) < (2 ^ 52 + 1 : ℕ) := by
      have hx := hbelow 52 (by push_cast; omega)
      push_cast
      linarith
    have hle' : m < 2 ^ 52 + 1 := Nat.cast_lt.1 hle
    omega
  have he : e = t + 1 := by
    by_contra hne
    have hx := hbelow 51 (by push_cast; omega)
    rw [hm] at hlow
    norm_num at hlow hx
    linarith
  subst hm he
  refine ⟨rfl, ?_⟩
  -- the gap below a power of two is a quarter of the unit
  have hgap : (⟨2 ^ 52, t + 1⟩ : Magnitude).lowerGap = 1 := if_pos ⟨rfl, by simp only; omega⟩
  have hhalf : (0 : ℚ) < 2 ^ t := zpow_pos two_pos _
  have hge : ((2 ^ 53 : ℕ) : ℚ) - 1 / 2 ≤ x / 2 ^ t := by
    have hlower := hx.ge
    rw [Magnitude.lower, hgap, zpow_add_one₀ two_ne_zero] at hlower
    rw [le_div_iff₀ hhalf]
    push_cast at hlower ⊢
    linarith
  have hle : x / 2 ^ t < ((2 ^ 53 : ℕ) : ℚ) := by
    rw [div_lt_iff₀ hhalf]
    rw [zpow_add₀ two_ne_zero, mul_comm] at hlt
    exact_mod_cast hlt
  exact ⟨hge, by linarith, fun hodd => absurd hodd (by norm_num)⟩

end Magnitude

/-- The numbers of the interval around a double are rounded to it. -/
theorem roundWithAccuracy_of_holds {v : Magnitude} (hv : v.IsDouble) {x : ℚ} (hx : v.Holds x)
    {m : ℕ} {e : ℤ} {acc : Accuracy} (hplace : StandsAt (x / 2 ^ e) m acc)
    (he : e ≤ Format.binary64.targetExponent (totalExponent m e)) (s : Sign) :
    roundWithAccuracy Format.binary64 s m e acc = .finite s v.mantissa v.exponent hv.pos := by
  obtain ⟨t, ht⟩ : ∃ t, Format.binary64.targetExponent (totalExponent m e) = t := ⟨_, rfl⟩
  rw [ht] at he
  have hmin : -1074 ≤ t := ht ▸ targetExponent_eq m e ▸ le_max_right _ _
  have hle : t ≤ v.exponent := by
    rcases le_of_targetExponent ht he hplace with rfl | hle
    · exact hv.exponent_ge
    · have hlt := (zpow_lt_zpow_iff_right₀ one_lt_two).1 (hle.trans_lt (hx.lt_two_zpow hv))
      omega
  rcases hle.eq_or_lt with rfl | hlt
  · exact roundWithAccuracy_of_lt ht he hplace hx.isNearest hv.pos hv.lt
  · obtain ⟨rfl, hnearest⟩ := hx.of_lt hv hmin hlt (lt_of_targetExponent ht hplace)
    exact roundWithAccuracy_full ht he hplace hnearest

end MatrixCalc
