import MatrixCalc.Proofs.Decimal.Rounding

/-!
# Doubles

A finite double other than zero is a sign, a mantissa and an exponent, and its word keeps all three
(`unpack_pack`). The product and the quotient of two doubles are the double whose interval holds the
exact result (`mul_of_holds`, `div_of_holds`). Whole numbers of up to 53 binary digits are doubles,
and so are the powers of ten in the table (`isWhole_toFloat`, `isWhole_tenPower`).

§1 words · §2 products and quotients · §3 whole numbers and powers of ten
-/

namespace MatrixCalc

open Float.Model Float.Model.UnpackedFloat

/-! ## §1 Words -/

theorem toNat_implicit (m : BitVec 52) : (1#1 ++ m).toNat = 2 ^ 52 + m.toNat := by
  rw [BitVec.toNat_append, ← Nat.shiftLeft_add_eq_or_of_lt m.isLt]
  simp [Nat.shiftLeft_eq]

def ofFields (s : Sign) (e : BitVec 11) (m : BitVec 52) : UnpackedFloat :=
  if e = -1#11 then if m = 0#52 then .infinity s else .notANumber
  else if e = 0#11 then
    if h : m = 0#52 then .zero s else .finite s m.toNat (-1074) (BitVec.toNat_pos_of_ne_zero h)
  else .finite s (1#1 ++ m).toNat (e.toNat - 1075) (by rw [toNat_implicit]; omega)

theorem unpack_eq_ofFields (b : BitVec 64) :
    UnpackedFloat.unpack Format.binary64 b =
      ofFields (Sign.ofBitVec (@unpackSign Format.binary64 b)) (@unpackExponent Format.binary64 b)
        (@unpackMantissa Format.binary64 b) := by
  have hbias : (Format.binary64.exponentBias : ℤ) + Format.binary64.mantissaBitsWithoutImplicit =
      1075 := by decide
  unfold UnpackedFloat.unpack ofFields
  simp only [hbias]
  split
  · rfl
  split
  next he =>
    rw [he]
    rfl
  next => rfl

theorem unpack_packComponents (s : Sign) (e : BitVec 11) (m : BitVec 52) :
    UnpackedFloat.unpack Format.binary64 (packComponents Format.binary64 s e m) =
      ofFields s e m := by
  rw [unpack_eq_ofFields, unpackSign_packComponents, Sign.ofBitVec_toBitVec]
  exact congrArg₂ (ofFields s) unpackExponent_packComponents unpackMantissa_packComponents

theorem finite_congr {s : Sign} {m m' : ℕ} {e e' : ℤ} {hm : 0 < m} {hm' : 0 < m'} (h : m = m')
    (he : e = e') : UnpackedFloat.finite s m e hm = .finite s m' e' hm' := by
  subst h he
  rfl

theorem unpack_pack {v : Magnitude} (hv : v.IsDouble) (s : Sign) :
    (Float.Model.pack (.finite s v.mantissa v.exponent hv.pos)).unpack =
      .finite s v.mantissa v.exponent hv.pos := by
  obtain ⟨m, e⟩ := v
  obtain ⟨hpos, hlt, hge, hle, hnormal⟩ := hv
  simp only at hpos hlt hge hle hnormal
  have hsum : e + Format.binary64.exponentBias + Format.binary64.mantissaBitsWithoutImplicit =
      e + 1075 := by
    rw [add_assoc]
    rfl
  have hfits : ¬ 2 ^ Format.binary64.exponentBits ≤ (e + 1075).toNat + 1 := by
    show ¬ 2 ^ 11 ≤ (e + 1075).toNat + 1
    omega
  have hlog : m.log2 + 1 = Format.binary64.mantissaBits ↔ 2 ^ 52 ≤ m := by
    rw [← Nat.le_log2 hpos.ne']
    have h := (Nat.log2_lt hpos.ne').2 hlt
    show m.log2 + 1 = 53 ↔ 52 ≤ m.log2
    omega
  show UnpackedFloat.unpack Format.binary64 (UnpackedFloat.pack Format.binary64 _) = _
  simp only [UnpackedFloat.pack, hsum, hfits, if_false, hlog]
  by_cases hm : 2 ^ 52 ≤ m
  · have hexponent : (BitVec.ofNat 11 (e + 1075).toNat).toNat = (e + 1075).toNat := by
      rw [BitVec.toNat_ofNat]
      omega
    have hmantissa : (1#1 ++ BitVec.ofNat 52 m).toNat = m := by
      rw [toNat_implicit, BitVec.toNat_ofNat]
      omega
    have htop : BitVec.ofNat 11 (e + 1075).toNat ≠ -1#11 := by
      rw [← BitVec.toNat_ne_iff_ne, hexponent]
      show (e + 1075).toNat ≠ 2047
      omega
    have hbottom : BitVec.ofNat 11 (e + 1075).toNat ≠ 0#11 := by
      rw [← BitVec.toNat_ne_iff_ne, hexponent]
      show (e + 1075).toNat ≠ 0
      omega
    rw [if_pos hm, unpack_packComponents, ofFields, if_neg htop, if_neg hbottom]
    exact finite_congr hmantissa (by rw [hexponent]; omega)
  · have he : e = -1074 := by
      by_contra hne
      exact hm (hnormal (by omega))
    have hmantissa : (BitVec.ofNat 52 m).toNat = m := by
      rw [BitVec.toNat_ofNat]
      omega
    have hzero : BitVec.ofNat 52 m ≠ 0#52 := by
      rw [← BitVec.toNat_ne_iff_ne, hmantissa]
      exact hpos.ne'
    rw [if_neg hm, unpack_packComponents, ofFields, if_neg (by decide), if_pos rfl, dif_neg hzero]
    exact finite_congr hmantissa he.symm

theorem eq_of_unpack {x y : Float} (h : y.toModel.unpack = x.toModel.unpack) : y = x :=
  Float.toBits_inj.1 (UInt64.toBitVec_inj.1
    ((unpack_inj_of_valid y.toModel.valid x.toModel.valid).1 h))

theorem isDouble_of_ofFields {s t : Sign} {exponent : BitVec 11} {mantissa : BitVec 52} {m : ℕ}
    {e : ℤ} {hm : 0 < m} (h : ofFields s exponent mantissa = .finite t m e hm) :
    (⟨m, e⟩ : Magnitude).IsDouble := by
  have hmantissa : mantissa.toNat < 2 ^ 52 := mantissa.isLt
  have hexponent : exponent.toNat < 2 ^ 11 := exponent.isLt
  unfold ofFields at h
  split at h
  · split at h <;> cases h
  next htop =>
  split at h
  · split at h
    · cases h
    · cases h
      exact ⟨hm, by simp only; omega, le_refl _, by norm_num, fun h => absurd h (lt_irrefl _)⟩
  next hbottom =>
    have htop' : exponent.toNat ≠ 2047 := BitVec.toNat_ne_iff_ne.2 htop
    have hbottom' : exponent.toNat ≠ 0 := BitVec.toNat_ne_iff_ne.2 hbottom
    have himplicit := toNat_implicit mantissa
    cases h
    exact ⟨hm, by simp only; omega, by simp only; omega, by simp only; omega,
      fun _ => by simp only; omega⟩

theorem isDouble_of_unpack {x : Float} {s : Sign} {m : ℕ} {e : ℤ} {hm : 0 < m}
    (h : x.toModel.unpack = .finite s m e hm) : (⟨m, e⟩ : Magnitude).IsDouble :=
  isDouble_of_ofFields ((unpack_eq_ofFields _).symm.trans h)

/-! ## §2 Products and quotients -/

theorem standsAt_exact (m : ℕ) (e : ℤ) : StandsAt ((m * 2 ^ e : ℚ) / 2 ^ e) m .exact :=
  mul_div_cancel_right₀ _ (zpow_ne_zero _ two_ne_zero)

/-- A mantissa with 53 digits is not in too large a unit. -/
theorem le_targetExponent {m : ℕ} (hm : 2 ^ 52 ≤ m) (e : ℤ) :
    e ≤ Format.binary64.targetExponent (totalExponent m e) := by
  have hlog : 52 ≤ m.log2 := (Nat.le_log2 (by omega)).2 hm
  rw [targetExponent_eq]
  omega

section Operations

variable {v : Magnitude} {m n : ℕ} {e f : ℤ} {hm : 0 < m} {hn : 0 < n}

theorem mul_of_holds (hv : v.IsDouble) (hx : v.Holds (m * 2 ^ e * (n * 2 ^ f)))
    (hmn : 2 ^ 52 ≤ m * n) (s t : Sign) :
    UnpackedFloat.mul Format.binary64 (.finite s m e hm) (.finite t n f hn) =
      .finite (s * t) v.mantissa v.exponent hv.pos := by
  have hvalue : (m * 2 ^ e * (n * 2 ^ f) : ℚ) = (m * n : ℕ) * 2 ^ (e + f) := by
    rw [zpow_add₀ two_ne_zero]
    push_cast
    ring
  rw [hvalue] at hx
  exact roundWithAccuracy_of_holds hv hx (standsAt_exact _ _) (le_targetExponent hmn _) _

theorem standsAt_fraction (q : ℕ) {r b : ℕ} (hr : r < b) :
    StandsAt (q + r / b : ℚ) q (accuracyOfFraction r b) := by
  have hb : (0 : ℚ) < b := Nat.cast_pos.2 (by omega)
  have hlt : (r / b : ℚ) < 1 := (div_lt_one hb).2 (Nat.cast_lt.2 hr)
  unfold accuracyOfFraction
  split
  next hzero => simp [StandsAt, hzero]
  next hne =>
    have hpos : (0 : ℚ) < r / b := div_pos (Nat.cast_pos.2 (Nat.pos_of_ne_zero hne)) hb
    cases hcompare : compare (2 * r) b with
    | lt =>
      have h : ((2 * r : ℕ) : ℚ) < b := Nat.cast_lt.2 (Nat.compare_eq_lt.1 hcompare)
      push_cast at h
      have hhalf : (r / b : ℚ) < 1 / 2 := (div_lt_iff₀ hb).2 (by linarith)
      exact ⟨by linarith, by linarith⟩
    | eq =>
      have h : ((2 * r : ℕ) : ℚ) = b := congrArg _ (Nat.compare_eq_eq.1 hcompare)
      push_cast at h
      have hhalf : (r / b : ℚ) = 1 / 2 := (div_eq_iff hb.ne').2 (by linarith)
      show (q + r / b : ℚ) = q + 1 / 2
      rw [hhalf]
    | gt =>
      have h : (b : ℚ) < ((2 * r : ℕ) : ℚ) := Nat.cast_lt.2 (Nat.compare_eq_gt.1 hcompare)
      push_cast at h
      have hhalf : (1 / 2 : ℚ) < r / b := (lt_div_iff₀ hb).2 (by linarith)
      exact ⟨by linarith, by linarith⟩

/-- The digits of a quotient are enough: it has 53 of them, or the unit is the smallest. -/
theorem le_targetExponent_div (hm : 0 < m) (hn : 0 < n) {t : ℤ} {k : ℕ} (hk : (k : ℤ) = e - f - t)
    (ht : t ≤ Format.binary64.targetExponent (totalExponent m e - totalExponent n f)) :
    t ≤ Format.binary64.targetExponent (totalExponent (m * 2 ^ k / n) t) := by
  have htarget (z : ℤ) : Format.binary64.targetExponent z = max (z - 53) (-1074) := rfl
  by_cases hmin : t ≤ -1074
  · rw [htarget]
    exact hmin.trans (le_max_right _ _)
  refine le_targetExponent ((Nat.le_div_iff_mul_le hn).2 ?_) t
  rw [htarget, totalExponent, totalExponent] at ht
  have hsum : n.log2 + 1 + 52 ≤ m.log2 + k := by omega
  calc 2 ^ 52 * n ≤ 2 ^ 52 * 2 ^ (n.log2 + 1) := Nat.mul_le_mul_left _ Nat.lt_log2_self.le
    _ = 2 ^ (n.log2 + 1 + 52) := by rw [← pow_add, add_comm]
    _ ≤ 2 ^ (m.log2 + k) := Nat.pow_le_pow_right two_pos hsum
    _ = 2 ^ m.log2 * 2 ^ k := pow_add _ _ _
    _ ≤ m * 2 ^ k := Nat.mul_le_mul_right _ (Nat.log2_self_le hm.ne')

/-- The quotient that is rounded is the one of the two doubles, in a unit that is small enough. -/
theorem divCore_spec (hm : 0 < m) (hn : 0 < n) (e f : ℤ) :
    let q := divCore Format.binary64 m e n f
    StandsAt ((m * 2 ^ e / (n * 2 ^ f) : ℚ) / 2 ^ q.2.1) q.1 q.2.2 ∧
      q.2.1 ≤ Format.binary64.targetExponent (totalExponent q.1 q.2.1) := by
  obtain ⟨t, ht⟩ : ∃ t, min (e - f)
      (Format.binary64.targetExponent (totalExponent m e - totalExponent n f)) = t := ⟨_, rfl⟩
  obtain ⟨k, hk⟩ : ∃ k : ℕ, (k : ℤ) = e - f - t :=
    ⟨(e - f - t).toNat, Int.toNat_of_nonneg (by omega)⟩
  have hshift : (e - f - t).toNat = k := by omega
  have hcore : divCore Format.binary64 m e n f =
      (m * 2 ^ k / n, t, accuracyOfFraction (m * 2 ^ k % n) n) := by
    simp only [divCore, ht, hshift, Nat.shiftLeft_eq]
  rw [hcore]
  refine ⟨?_, le_targetExponent_div hm hn hk (ht ▸ min_le_right _ _)⟩
  have hvalue : (m * 2 ^ e / (n * 2 ^ f) : ℚ) / 2 ^ t =
      (m * 2 ^ k / n : ℕ) + (m * 2 ^ k % n : ℕ) / n := by
    have hn' : (n : ℚ) ≠ 0 := Nat.cast_ne_zero.2 hn.ne'
    have hpow : (2 : ℚ) ^ e = 2 ^ k * (2 ^ f * 2 ^ t) := by
      rw [← zpow_natCast, ← zpow_add₀ two_ne_zero, ← zpow_add₀ two_ne_zero]
      congr 1
      omega
    have hsum : (m * 2 ^ k : ℚ) = n * (m * 2 ^ k / n : ℕ) + (m * 2 ^ k % n : ℕ) := by
      exact_mod_cast (Nat.div_add_mod (m * 2 ^ k) n).symm
    calc (m * 2 ^ e / (n * 2 ^ f) : ℚ) / 2 ^ t = m * 2 ^ k / n := by
          rw [hpow]
          field_simp
      _ = (m * 2 ^ k / n : ℕ) + (m * 2 ^ k % n : ℕ) / n := by
          rw [hsum, add_div, mul_div_cancel_left₀ _ hn']
  rw [hvalue]
  exact standsAt_fraction _ (Nat.mod_lt _ hn)

theorem div_of_holds (hv : v.IsDouble) (hx : v.Holds (m * 2 ^ e / (n * 2 ^ f))) (s t : Sign) :
    UnpackedFloat.div Format.binary64 (.finite s m e hm) (.finite t n f hn) =
      .finite (s / t) v.mantissa v.exponent hv.pos := by
  obtain ⟨hplace, hexponent⟩ := divCore_spec hm hn e f
  exact roundWithAccuracy_of_holds hv hx hplace hexponent _

end Operations

/-! ## §3 Whole numbers and powers of ten -/

theorem Magnitude.holds_self (v : Magnitude) : v.Holds (v.mantissa * 2 ^ v.exponent) := by
  have hunit : (0 : ℚ) < 2 ^ v.exponent := zpow_pos two_pos _
  have hgap : (0 : ℚ) < v.lowerGap := by
    unfold lowerGap
    split <;> norm_num
  have hlower : v.lower < v.mantissa * 2 ^ v.exponent :=
    mul_lt_mul_of_pos_right (by linarith) hunit
  have hupper : v.mantissa * 2 ^ v.exponent < v.upper :=
    mul_lt_mul_of_pos_right (by linarith) hunit
  exact ⟨hlower.le, hupper.le, fun _ => ⟨hlower, hupper⟩⟩

/-- A double that is a whole number other than zero, with all 53 digits. -/
def IsWhole (x : Float) (n : ℕ) : Prop :=
  ∃ m e hm, x.toModel.unpack = .finite .positive m e hm ∧ 2 ^ 52 ≤ m ∧ (m * 2 ^ e : ℚ) = n

theorem isWhole_toFloat {n : ℕ} (hpos : 0 < n) (hlt : n < 2 ^ 53) :
    IsWhole n.toUInt64.toFloat n := by
  have hlog : n.log2 < 53 := (Nat.log2_lt hpos.ne').2 hlt
  obtain ⟨k, hk⟩ : ∃ k, n.log2 + k = 52 := ⟨52 - n.log2, by omega⟩
  have hge : 2 ^ 52 ≤ n * 2 ^ k := by
    rw [← hk, pow_add]
    exact Nat.mul_le_mul_right _ (Nat.log2_self_le hpos.ne')
  have hlt' : n * 2 ^ k < 2 ^ 53 := by
    have hsucc : 53 = n.log2 + 1 + k := by omega
    rw [hsucc, pow_add]
    exact Nat.mul_lt_mul_of_pos_right Nat.lt_log2_self (Nat.two_pow_pos k)
  have hv : (⟨n * 2 ^ k, -k⟩ : Magnitude).IsDouble :=
    ⟨by positivity, hlt', by simp only; omega, by simp only; omega, fun _ => hge⟩
  have hround : Float.Model.UnpackedFloat.ofNat Format.binary64 n =
      .finite .positive (n * 2 ^ k) (-k) hv.pos := by
    have hcompare : compare (n : ℤ) 0 = .gt := Int.compare_eq_gt.2 (by omega)
    have hunit : Format.binary64.targetExponent (totalExponent n 0) = -k := by
      rw [targetExponent_eq]
      omega
    have hshift : (0 - -(k : ℤ)).toNat = k := by omega
    have hdecrease : decreaseExponent n 0 (-k) = (n * 2 ^ k, (-k : ℤ)) := by
      rw [decreaseExponent, hshift, Nat.shiftLeft_eq, zero_sub]
    show UnpackedFloat.normalize Format.binary64 (n : ℤ) 0 .positive = _
    rw [UnpackedFloat.normalize, hcompare]
    show UnpackedFloat.round Format.binary64 .positive n 0 = _
    simp only [UnpackedFloat.round, hunit, hdecrease]
    exact roundWithAccuracy_of_holds hv (Magnitude.holds_self _) (standsAt_exact _ _)
      (le_targetExponent hge _) _
  refine ⟨n * 2 ^ k, -k, hv.pos, ?_, hge, ?_⟩
  · show (Float.Model.pack (UnpackedFloat.ofNat Format.binary64 n.toUInt64.toNat)).unpack = _
    have hn : n.toUInt64.toNat = n := by
      rw [Nat.toUInt64_eq, UInt64.toNat_ofNat']
      exact Nat.mod_eq_of_lt (by omega)
    rw [hn, hround]
    exact unpack_pack hv .positive
  · push_cast
    rw [zpow_neg, zpow_natCast]
    field_simp

/-- A power of a base with either sign, by powers of whole numbers. -/
theorem zpow_mul_pow_neg {b : ℚ} (hb : b ≠ 0) (a : ℤ) : b ^ a * b ^ (-a).toNat = b ^ a.toNat := by
  rw [← zpow_natCast, ← zpow_natCast, ← zpow_add₀ hb]
  congr 1
  omega

def isTenPower (x : Float) (n : ℕ) : Bool :=
  match x.toModel.unpack with
  | .finite .positive m e _ => 2 ^ 52 ≤ m && m * 2 ^ e.toNat == 10 ^ n * 2 ^ (-e).toNat
  | _ => false

theorem isWhole_of_isTenPower {x : Float} {n : ℕ} (h : isTenPower x n = true) :
    IsWhole x (10 ^ n) := by
  unfold isTenPower at h
  split at h
  next m e hm hx =>
    rw [Bool.and_eq_true, decide_eq_true_eq, beq_iff_eq] at h
    refine ⟨m, e, hm, hx, h.1, ?_⟩
    have hvalue : (m * 2 ^ e.toNat : ℚ) = 10 ^ n * 2 ^ (-e).toNat := by exact_mod_cast h.2
    have hne : (2 : ℚ) ^ (-e).toNat ≠ 0 := pow_ne_zero _ two_ne_zero
    refine mul_right_cancel₀ hne ?_
    rw [mul_assoc, zpow_mul_pow_neg two_ne_zero, hvalue]
    push_cast
    rfl
  next => cases h

theorem isWhole_tenPower {n : ℕ} (hn : n < Float.exactlyRepresentablePowersOfTen.size) :
    IsWhole Float.exactlyRepresentablePowersOfTen[n] (10 ^ n) := by
  have hall : Float.exactlyRepresentablePowersOfTen.toList.zipIdx.all
      (fun x => isTenPower x.1 x.2) = true := by decide +kernel
  refine isWhole_of_isTenPower (List.all_eq_true.1 hall (_, n) ?_)
  rw [List.mem_zipIdx_iff_getElem?]
  simp [hn]

end MatrixCalc
