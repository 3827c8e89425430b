import MatrixCalc.Decimal.Numeral
import MatrixCalc.Proofs.Decimal.Doubles

/-!
# The double of a decimal

A decimal in the interval around a double is read as that double (`isPositive_toFloat`), whether its
digits and its power of ten are doubles themselves or not.

§1 the size of a decimal · §2 products and quotients of doubles · §3 the reader
-/

namespace MatrixCalc

open Float.Model Float.Model.UnpackedFloat

/-! ## §1 The size of a decimal -/

namespace Decimal

def val (d : Decimal) : ℚ := d.coefficient * 10 ^ d.exponent

theorem lt_tenPow_digitCount (n : ℕ) : n < 10 ^ digitCount n :=
  (Nat.length_toDigits_le_iff (by decide) Nat.length_toDigits_pos).1 (Nat.le_refl _)

theorem tenPow_le_of_pos {n : ℕ} (hn : 0 < n) : 10 ^ (digitCount n - 1) ≤ n := by
  rcases Nat.lt_or_ge 1 (digitCount n) with hlong | hshort
  · refine Nat.le_of_not_lt fun hlt => ?_
    have hle : digitCount n ≤ digitCount n - 1 :=
      (Nat.length_toDigits_le_iff (by decide) (by omega)).2 hlt
    omega
  · rw [Nat.sub_eq_zero_of_le hshort]
    exact hn

variable {d : Decimal}

/-- The place of the first digit. -/
theorem val_lt (d : Decimal) : d.val < 10 ^ (d.exponent + digitCount d.coefficient) := by
  have hunit : (0 : ℚ) < 10 ^ d.exponent := zpow_pos (by norm_num) _
  have hlt : (d.coefficient : ℚ) < 10 ^ digitCount d.coefficient := by
    exact_mod_cast lt_tenPow_digitCount d.coefficient
  rw [add_comm, zpow_add₀ (by norm_num), zpow_natCast]
  exact mul_lt_mul_of_pos_right hlt hunit

theorem le_val (hpos : 0 < d.coefficient) :
    10 ^ (d.exponent + digitCount d.coefficient - 1) ≤ d.val := by
  have hunit : (0 : ℚ) < 10 ^ d.exponent := zpow_pos (by norm_num) _
  have hle : (10 : ℚ) ^ (digitCount d.coefficient - 1) ≤ d.coefficient := by
    exact_mod_cast tenPow_le_of_pos hpos
  have hcount : 0 < digitCount d.coefficient := Nat.length_toDigits_pos
  have hsum : d.exponent + digitCount d.coefficient - 1 =
      ((digitCount d.coefficient - 1 : ℕ) : ℤ) + d.exponent := by omega
  rw [hsum, zpow_add₀ (by norm_num), zpow_natCast]
  exact mul_le_mul_of_nonneg_right hle hunit.le

end Decimal

namespace Magnitude

variable {v : Magnitude} {x : ℚ}

theorem Holds.two_zpow_le (hv : v.IsDouble) (hx : v.Holds x) : 2 ^ (-1075 : ℤ) ≤ x := by
  have hunit : (0 : ℚ) < 2 ^ v.exponent := zpow_pos two_pos _
  have hm : (1 : ℚ) ≤ v.mantissa := by exact_mod_cast hv.pos
  have hlow := hx.isNearest.ge
  rw [le_div_iff₀ hunit] at hlow
  calc (2 : ℚ) ^ (-1075 : ℤ) ≤ 2 ^ (v.exponent - 1) :=
        zpow_le_zpow_right₀ one_le_two (by linarith [hv.exponent_ge])
    _ = 1 / 2 * 2 ^ v.exponent := by
        rw [zpow_sub_one₀ two_ne_zero]
        ring
    _ ≤ (v.mantissa - 1 / 2) * 2 ^ v.exponent :=
        mul_le_mul_of_nonneg_right (by linarith) hunit.le
    _ ≤ x := hlow

theorem Holds.lt_max (hv : v.IsDouble) (hx : v.Holds x) : x < 2 ^ (1024 : ℤ) :=
  (hx.lt_two_zpow hv).trans_le (zpow_le_zpow_right₀ one_le_two (by linarith [hv.exponent_le]))

end Magnitude

/-- The first digit of a decimal that is near a double is at a place in reach. -/
theorem Decimal.place_bounds {v : Magnitude} (hv : v.IsDouble) {d : Decimal} (hd : v.Holds d.val) :
    0 < d.coefficient ∧ -330 < d.exponent + digitCount d.coefficient ∧
      d.exponent + digitCount d.coefficient ≤ 310 := by
  have hge := hd.two_zpow_le hv
  have hlt := hd.lt_max hv
  have hpos : 0 < d.coefficient := by
    refine Nat.pos_of_ne_zero fun hzero => ?_
    have hval : d.val = 0 := by rw [val, hzero, Nat.cast_zero, zero_mul]
    rw [hval] at hge
    exact absurd hge (not_le.2 (zpow_pos two_pos _))
  refine ⟨hpos, ?_, ?_⟩
  · have hten : (10 : ℚ) ^ (-330 : ℤ) ≤ 2 ^ (-1075 : ℤ) := by
      have hpow : 2 ^ 1075 ≤ 10 ^ 330 := by decide +kernel
      rw [zpow_neg, zpow_neg]
      refine inv_anti₀ (by positivity) ?_
      exact_mod_cast hpow
    exact (zpow_lt_zpow_iff_right₀ (by norm_num)).1 ((hten.trans hge).trans_lt d.val_lt)
  · have hten : (2 : ℚ) ^ (1024 : ℤ) ≤ 10 ^ (310 : ℤ) := by
      have hpow : 2 ^ 1024 ≤ 10 ^ 310 := by decide +kernel
      exact_mod_cast hpow
    have hlt := (zpow_lt_zpow_iff_right₀ (by norm_num)).1
      ((le_val hpos).trans_lt (hlt.trans_le hten))
    omega

/-! ## §2 Products and quotients of doubles -/

/-- The double with the mantissa and exponent of a magnitude. -/
def IsPositive (x : Float) (v : Magnitude) : Prop :=
  ∃ hpos, x.toModel.unpack = .finite .positive v.mantissa v.exponent hpos

section Operations

variable {v : Magnitude} {a b : Float} {m n : ℕ}

theorem isPositive_mul (hv : v.IsDouble) (ha : IsWhole a m) (hb : IsWhole b n)
    (hx : v.Holds (m * n : ℕ)) : IsPositive (a * b) v := by
  obtain ⟨k, e, hk, ha, hk53, hm⟩ := ha
  obtain ⟨l, f, hl, hb, -, hn⟩ := hb
  rw [Nat.cast_mul, ← hm, ← hn] at hx
  refine ⟨hv.pos, ?_⟩
  show (Float.Model.pack
    (UnpackedFloat.mul Format.binary64 a.toModel.unpack b.toModel.unpack)).unpack = _
  rw [ha, hb, mul_of_holds hv hx (hk53.trans (Nat.le_mul_of_pos_right k hl)) .positive .positive]
  exact unpack_pack hv .positive

theorem isPositive_div (hv : v.IsDouble) (ha : IsWhole a m) (hb : IsWhole b n)
    (hx : v.Holds (m / n)) : IsPositive (a / b) v := by
  obtain ⟨k, e, hk, ha, -, hm⟩ := ha
  obtain ⟨l, f, hl, hb, -, hn⟩ := hb
  rw [← hm, ← hn] at hx
  refine ⟨hv.pos, ?_⟩
  show (Float.Model.pack
    (UnpackedFloat.div Format.binary64 a.toModel.unpack b.toModel.unpack)).unpack = _
  rw [ha, hb, div_of_holds hv hx .positive .positive]
  exact unpack_pack hv .positive

end Operations

/-! ## §3 The reader -/

section Reader

variable {v : Magnitude} {c : ℕ} {e : ℤ}

/-- A decimal whose digits and power of ten are doubles. -/
theorem isPositive_ofScientific_small (hv : v.IsDouble) (hx : v.Holds (c * 10 ^ e)) (hc : 0 < c)
    (hsmall : c < 2 ^ 53 ∧ e.natAbs ≤ 22) :
    IsPositive (Float.ofScientific c (e < 0) e.natAbs) v := by
  have hwhole := isWhole_toFloat hc hsmall.1
  have hsize : e.natAbs < Float.exactlyRepresentablePowersOfTen.size := by
    show e.natAbs < 23
    omega
  have hten := isWhole_tenPower hsize
  rw [Float.ofScientific, dif_pos hsmall]
  by_cases he : e < 0
  · have hvalue : (c * 10 ^ e : ℚ) = c / (10 ^ e.natAbs : ℕ) := by
      have hexp : e = -(e.natAbs : ℤ) := by omega
      rw [div_eq_mul_inv, Nat.cast_pow, Nat.cast_ofNat, ← zpow_natCast, ← zpow_neg, ← hexp]
    rw [hvalue] at hx
    rw [decide_eq_true he, if_pos rfl]
    exact isPositive_div hv hwhole hten hx
  · have hvalue : (c * 10 ^ e : ℚ) = (c * 10 ^ e.natAbs : ℕ) := by
      have hexp : e = (e.natAbs : ℤ) := by omega
      rw [Nat.cast_mul, Nat.cast_pow, Nat.cast_ofNat, ← zpow_natCast, ← hexp]
    rw [hvalue] at hx
    rw [decide_eq_false he, if_neg Bool.false_ne_true]
    exact isPositive_mul hv hwhole hten hx

theorem unpack_ofScientific (hv : v.IsDouble) (hx : v.Holds (c * 10 ^ e)) (hc : 0 < c) :
    UnpackedFloat.ofScientific Format.binary64 c e =
      .finite .positive v.mantissa v.exponent hv.pos := by
  have hdecimal : v.Holds (⟨c, e⟩ : Decimal).val := hx
  obtain ⟨-, hlow, hhigh⟩ := Decimal.place_bounds hv hdecimal
  have hcount : Decimal.digitCount c ≤ c.log2 + 1 := by
    have hlt : 2 ^ (Decimal.digitCount c - 1) < 2 ^ (c.log2 + 1) :=
      calc 2 ^ (Decimal.digitCount c - 1) ≤ 10 ^ (Decimal.digitCount c - 1) :=
            Nat.pow_le_pow_left (by decide) _
        _ ≤ c := Decimal.tenPow_le_of_pos hc
        _ < 2 ^ (c.log2 + 1) := Nat.lt_log2_self
    have hexp := (Nat.pow_lt_pow_iff_right (by decide)).1 hlt
    omega
  simp only at hlow hhigh
  have hnotLarge : ¬ e > 2 ^ Format.binary64.exponentBits := by
    show ¬ e > 2 ^ 11
    omega
  have hnotSmall : ¬ e < -((2 ^ Format.binary64.exponentBits : ℤ) + c.log2) := by
    show ¬ e < -((2 ^ 11 : ℤ) + c.log2)
    omega
  rw [UnpackedFloat.ofScientific, dif_neg hc.ne', if_neg hnotLarge, if_neg hnotSmall]
  split
  next he =>
    have hbits : c <<< Format.binary64.mantissaBits = c * 2 ^ 53 := Nat.shiftLeft_eq _ _
    have hexp : ((e.toNat : ℕ) : ℤ) = e := Int.toNat_of_nonneg he
    refine mul_of_holds hv ?_ ?_ .positive .positive
    · have hvalue : ((c * 2 ^ 53 : ℕ) * 2 ^ (-53 : ℤ) * ((10 ^ e.toNat : ℕ) * 2 ^ (0 : ℤ)) : ℚ) =
          c * 10 ^ e := by
        have hten : (10 : ℚ) ^ e.toNat = 10 ^ e := by rw [← zpow_natCast, hexp]
        have htwo : ((2 ^ 53 : ℕ) : ℚ) * 2 ^ (-53 : ℤ) = 1 := by norm_num
        rw [Nat.cast_mul, mul_assoc (c : ℚ), htwo, Nat.cast_pow, Nat.cast_ofNat, hten, zpow_zero,
          mul_one, mul_one]
      rw [hbits]
      exact hvalue.symm ▸ hx
    · rw [hbits]
      calc 2 ^ 52 ≤ 1 * 2 ^ 53 * 1 := by norm_num
        _ ≤ c * 2 ^ 53 * 10 ^ e.toNat :=
          Nat.mul_le_mul (Nat.mul_le_mul_right _ hc) (Nat.pow_pos (by decide))
  next he =>
    have hexp : -(((-e).toNat : ℕ) : ℤ) = e := by omega
    have hvalue : (c * 2 ^ (0 : ℤ) / ((10 ^ (-e).toNat : ℕ) * 2 ^ (0 : ℤ)) : ℚ) = c * 10 ^ e := by
      have hten : (10 : ℚ) ^ e = (10 ^ (-e).toNat)⁻¹ := by
        rw [← zpow_natCast, ← zpow_neg, hexp]
      push_cast
      rw [hten, mul_one, mul_one, div_eq_mul_inv]
    refine div_of_holds hv ?_ .positive .positive
    exact hvalue.symm ▸ hx

theorem isPositive_ofScientific_large (hv : v.IsDouble) (hx : v.Holds (c * 10 ^ e)) (hc : 0 < c)
    (hsmall : ¬ (c < 2 ^ 53 ∧ e.natAbs ≤ 22)) :
    IsPositive (Float.ofScientific c (e < 0) e.natAbs) v := by
  have hexp :
      (if decide (e < 0) = true then Int.negOfNat e.natAbs else Int.ofNat e.natAbs) = e := by
    split
    next he =>
      rw [decide_eq_true_eq] at he
      rw [Int.negOfNat_eq]
      show -(e.natAbs : ℤ) = e
      omega
    next he =>
      rw [decide_eq_true_eq] at he
      show (e.natAbs : ℤ) = e
      omega
  refine ⟨hv.pos, ?_⟩
  rw [Float.ofScientific, dif_neg hsmall]
  simp only [hexp]
  show (Float.Model.pack (UnpackedFloat.ofScientific Format.binary64 c e)).unpack = _
  rw [unpack_ofScientific hv hx hc]
  exact unpack_pack hv .positive

end Reader

/-- A decimal in the interval around a double is read as that double. -/
theorem isPositive_toFloat {v : Magnitude} (hv : v.IsDouble) {d : Decimal} (hd : v.Holds d.val) :
    IsPositive d.toFloat v := by
  obtain ⟨hpos, hlow, hhigh⟩ := Decimal.place_bounds hv hd
  have hzero : ¬ (d.coefficient = 0 ∨ d.exponent + Decimal.digitCount d.coefficient < -330) := by
    omega
  rw [Decimal.toFloat, if_neg hzero, if_neg (not_lt.2 hhigh)]
  by_cases hsmall : d.coefficient < 2 ^ 53 ∧ d.exponent.natAbs ≤ 22
  · exact isPositive_ofScientific_small hv hd hpos hsmall
  · exact isPositive_ofScientific_large hv hd hpos hsmall

end MatrixCalc
