import MatrixCalc.Proofs.Algebra.Clearing
import MatrixCalc.Proofs.Algebra.Rounded
import MatrixCalc.Proofs.Decimal.Doubles

/-!
# Zeros and ones among the doubles

A finite double divided by itself is one, and one, as a factor or a divisor, changes no double. The
difference of a double to itself is a zero, and so is a product of a double with a zero and a
quotient of a zero. Taking away a zero changes at most the sign of another zero. That is all that
the two sweeps need of the doubles (`ExactUnits Float`, `KeepsZeros Float`): what they round to
elsewhere does not matter.

§1 zeros and other doubles · §2 a one · §3 a zero · §4 what is finite
-/

namespace MatrixCalc

open Float.Model Float.Model.UnpackedFloat

open Scalar (HasFinite KeepsZeros ExactUnits SameValue)

instance : HasFinite Float := ⟨fun x => x.isFinite = true⟩

section Units

variable {x y : Float} {s t : Sign} {m n : ℕ} {e f : ℤ} {hm : 0 < m} {hn : 0 < n}

/-! ## §1 Zeros and other doubles -/

theorem isZero_iff_unpack : Scalar.isZero x = true ↔ ∃ s, x.toModel.unpack = .zero s := by
  show UnpackedFloat.beq x.toModel.unpack (.zero .positive) = true ↔ _
  rw [beq_iff_ne_notANumber_and_eq]
  constructor
  · rintro ⟨-, -, h | ⟨h, -⟩ | ⟨h, -⟩⟩
    · exact ⟨_, h⟩
    · exact ⟨_, h⟩
    · exact ⟨_, h⟩
  · rintro ⟨s, h⟩
    rw [h]
    cases s <;> simp

theorem isZero_or_unpack (hx : HasFinite.IsFinite x) :
    Scalar.isZero x = true ∨ ∃ s m e hm, x.toModel.unpack = .finite s m e hm := by
  change x.toModel.unpack.isFinite = true at hx
  cases hunpack : x.toModel.unpack with
  | notANumber =>
    rw [hunpack] at hx
    cases hx
  | infinity s =>
    rw [hunpack] at hx
    cases hx
  | zero s => exact .inl (isZero_iff_unpack.2 ⟨s, hunpack⟩)
  | finite s m e hm => exact .inr ⟨s, m, e, hm, rfl⟩

theorem exists_unpack (hx : HasFinite.IsFinite x) (hne : Scalar.isZero x = false) :
    ∃ s m e hm, x.toModel.unpack = .finite s m e hm :=
  (isZero_or_unpack hx).resolve_left (Bool.eq_false_iff.1 hne)

theorem unpack_pack_zero (s : Sign) : (Float.Model.pack (.zero s)).unpack = .zero s := by
  cases s <;> rfl

theorem unpack_one :
    (1 : Float).toModel.unpack = .finite .positive (2 ^ 52) (-52) (by decide) := rfl

theorem unpack_mul (x y : Float) : (x * y).toModel.unpack =
    (Float.Model.pack (UnpackedFloat.mul Format.binary64 x.toModel.unpack
      y.toModel.unpack)).unpack := rfl

theorem unpack_div (x y : Float) : (x / y).toModel.unpack =
    (Float.Model.pack (UnpackedFloat.div Format.binary64 x.toModel.unpack
      y.toModel.unpack)).unpack := rfl

theorem unpack_sub (x y : Float) : (x - y).toModel.unpack =
    (Float.Model.pack (UnpackedFloat.sub Format.binary64 x.toModel.unpack
      y.toModel.unpack)).unpack := rfl

/-! ## §2 A one -/

theorem isDouble_one : (⟨2 ^ 52, -52⟩ : Magnitude).IsDouble :=
  ⟨by norm_num, by norm_num, by norm_num, by norm_num, fun _ => le_rfl⟩

theorem div_self_of_unpack (hx : x.toModel.unpack = .finite s m e hm) : x / x = 1 := by
  have hvalue : (m * 2 ^ e / (m * 2 ^ e) : ℚ) = (2 ^ 52 : ℕ) * 2 ^ (-52 : ℤ) := by
    have hm' : (m : ℚ) ≠ 0 := Nat.cast_ne_zero.2 hm.ne'
    rw [div_self (mul_ne_zero hm' (zpow_ne_zero e two_ne_zero))]
    norm_num
  have hholds : (⟨2 ^ 52, -52⟩ : Magnitude).Holds (m * 2 ^ e / (m * 2 ^ e)) := by
    rw [hvalue]
    exact Magnitude.holds_self _
  have hsign : s / s = .positive := by cases s <;> rfl
  refine eq_of_unpack ?_
  rw [unpack_div, hx, div_of_holds isDouble_one hholds, hsign]
  exact unpack_pack isDouble_one .positive

theorem mul_one_of_unpack (hx : x.toModel.unpack = .finite s m e hm) : x * 1 = x := by
  have hv := isDouble_of_unpack hx
  have hholds : (⟨m, e⟩ : Magnitude).Holds (m * 2 ^ e * ((2 ^ 52 : ℕ) * 2 ^ (-52 : ℤ))) := by
    have hone : ((2 ^ 52 : ℕ) * 2 ^ (-52 : ℤ) : ℚ) = 1 := by norm_num
    rw [hone, mul_one]
    exact Magnitude.holds_self ⟨m, e⟩
  have hsign : s * .positive = s := by cases s <;> rfl
  refine eq_of_unpack ?_
  rw [unpack_mul, hx, unpack_one, mul_of_holds hv hholds (Nat.le_mul_of_pos_left _ hm), hsign]
  exact unpack_pack hv s

theorem div_one_of_unpack (hx : x.toModel.unpack = .finite s m e hm) : x / 1 = x := by
  have hv := isDouble_of_unpack hx
  have hholds : (⟨m, e⟩ : Magnitude).Holds (m * 2 ^ e / ((2 ^ 52 : ℕ) * 2 ^ (-52 : ℤ))) := by
    have hone : ((2 ^ 52 : ℕ) * 2 ^ (-52 : ℤ) : ℚ) = 1 := by norm_num
    rw [hone, div_one]
    exact Magnitude.holds_self ⟨m, e⟩
  have hsign : s / .positive = s := by cases s <;> rfl
  refine eq_of_unpack ?_
  rw [unpack_div, hx, unpack_one, div_of_holds hv hholds, hsign]
  exact unpack_pack hv s

/-- A zero is neither multiplied nor divided by one. -/
theorem unit_of_isZero (hx : Scalar.isZero x = true) : x * 1 = x ∧ x / 1 = x := by
  obtain ⟨s, hx⟩ := isZero_iff_unpack.1 hx
  constructor
  · refine eq_of_unpack ?_
    rw [unpack_mul, hx, unpack_one]
    cases s <;> rfl
  · refine eq_of_unpack ?_
    rw [unpack_div, hx, unpack_one]
    cases s <;> rfl

/-! ## §3 A zero -/

theorem isZero_of_pack (h : (Float.Model.pack (.zero s)).unpack = x.toModel.unpack) :
    Scalar.isZero x = true :=
  isZero_iff_unpack.2 ⟨s, h.symm.trans (unpack_pack_zero s)⟩

/-- A zero taken away changes at most the sign of a zero. -/
theorem sameValue_sub_zero (hx : HasFinite.IsFinite x) (hy : Scalar.isZero y = true) :
    SameValue (x - y) x := by
  obtain ⟨t, hy⟩ := isZero_iff_unpack.1 hy
  rcases isZero_or_unpack hx with hzero | ⟨s, m, e, hm, hx⟩
  · obtain ⟨s, hx⟩ := isZero_iff_unpack.1 hzero
    obtain ⟨u, hu⟩ : ∃ u, UnpackedFloat.sub Format.binary64 (.zero s) (.zero t) = .zero u := by
      cases s <;> cases t <;> exact ⟨_, rfl⟩
    refine .inr ⟨isZero_of_pack (s := u) ?_, hzero⟩
    rw [unpack_sub, hx, hy, hu]
  · refine .inl (eq_of_unpack ?_)
    rw [unpack_sub, hx, hy]
    exact unpack_pack (isDouble_of_unpack hx) s

theorem isZero_double_sub_self (hx : HasFinite.IsFinite x) : Scalar.isZero (x - x) = true := by
  rcases isZero_or_unpack hx with hzero | ⟨s, m, e, hm, hunpack⟩
  · rw [(sameValue_sub_zero hx hzero).isZero_eq, hzero]
  · have hsub : UnpackedFloat.sub Format.binary64 (.finite s m e hm) (.finite s m e hm) =
        .zero .positive := by
      show UnpackedFloat.normalize Format.binary64 (_ - _) _ .positive = _
      rw [Int.sub_self]
      rfl
    refine isZero_of_pack (s := .positive) ?_
    rw [unpack_sub, hunpack, hsub]

theorem isZero_double_mul_zero (hx : HasFinite.IsFinite x) (hy : Scalar.isZero y = true) :
    Scalar.isZero (x * y) = true := by
  obtain ⟨t, hy⟩ := isZero_iff_unpack.1 hy
  rcases isZero_or_unpack hx with hzero | ⟨s, m, e, hm, hx⟩
  · obtain ⟨s, hx⟩ := isZero_iff_unpack.1 hzero
    refine isZero_of_pack (s := s * t) ?_
    rw [unpack_mul, hx, hy]
    rfl
  · refine isZero_of_pack (s := s * t) ?_
    rw [unpack_mul, hx, hy]
    rfl

theorem isZero_double_zero_div (hx : Scalar.isZero x = true) (hy : HasFinite.IsFinite y)
    (hne : Scalar.isZero y = false) : Scalar.isZero (x / y) = true := by
  obtain ⟨s, hx⟩ := isZero_iff_unpack.1 hx
  obtain ⟨t, m, e, hm, hy⟩ := exists_unpack hy hne
  refine isZero_of_pack (s := s / t) ?_
  rw [unpack_div, hx, hy]
  rfl

/-! ## §4 What is finite -/

theorem isFinite_of_pack {u : UnpackedFloat}
    (h : (Float.Model.pack u).unpack.isFinite = true) : u.isFinite = true := by
  cases u with
  | notANumber => exact h
  | infinity s => cases s <;> exact h
  | zero s => rfl
  | finite s m e hm => rfl

/-- A difference is finite only if both of its terms are. -/
theorem isFinite_of_sub (h : HasFinite.IsFinite (x - y)) :
    HasFinite.IsFinite x ∧ HasFinite.IsFinite y := by
  have hsub : ∀ u v : UnpackedFloat, (UnpackedFloat.sub Format.binary64 u v).isFinite = true →
      u.isFinite = true ∧ v.isFinite = true := by
    intro u v h
    cases u with
    | notANumber => cases h
    | infinity s =>
      cases v with
      | infinity t => cases s <;> cases t <;> cases h
      | _ => cases h
    | zero s =>
      cases v with
      | notANumber => cases h
      | infinity t => cases h
      | _ => exact ⟨rfl, rfl⟩
    | finite s m e hm =>
      cases v with
      | notANumber => cases h
      | infinity t => cases h
      | _ => exact ⟨rfl, rfl⟩
  exact hsub _ _ (isFinite_of_pack h)

/-- The product of a double with a zero is finite only if the double is. -/
theorem isFinite_of_mul_zero (hy : Scalar.isZero y = true) (h : HasFinite.IsFinite (x * y)) :
    HasFinite.IsFinite x := by
  obtain ⟨t, hy⟩ := isZero_iff_unpack.1 hy
  change (Float.Model.pack
    (UnpackedFloat.mul Format.binary64 x.toModel.unpack y.toModel.unpack)).unpack.isFinite = true
    at h
  rw [hy] at h
  have hmul : ∀ u : UnpackedFloat, (UnpackedFloat.mul Format.binary64 u (.zero t)).isFinite = true →
      u.isFinite = true := by
    intro u h
    cases u with
    | notANumber => exact h
    | infinity s => exact h
    | zero s => rfl
    | finite s m e hm => rfl
  exact hmul _ (isFinite_of_pack h)

end Units

/-- Doubles are exact where a zero or a one takes part. -/
instance : ExactUnits Float where
  isZero_one := by decide
  beq_self {x} hx := by
    rw [Float.beq_self_iff]
    rintro rfl
    exact Bool.false_ne_true hx
  div_self hx hne := by
    obtain ⟨s, m, e, hm, hunpack⟩ := exists_unpack hx hne
    exact div_self_of_unpack hunpack
  mul_one hx := by
    rcases isZero_or_unpack hx with hzero | ⟨s, m, e, hm, hunpack⟩
    · exact (unit_of_isZero hzero).1
    · exact mul_one_of_unpack hunpack
  div_one hx := by
    rcases isZero_or_unpack hx with hzero | ⟨s, m, e, hm, hunpack⟩
    · exact (unit_of_isZero hzero).2
    · exact div_one_of_unpack hunpack
  isZero_sub_self := isZero_double_sub_self
  isZero_zero_div := isZero_double_zero_div
  isZero_mul_zero := isZero_double_mul_zero
  sub_zero := sameValue_sub_zero

/-- A multiple of zero is finite only if the factor is, and it is a zero then. -/
instance : KeepsZeros Float where
  isZero_zero := by decide
  isZero_sub_mul {x y} factor hy hfinite := by
    obtain ⟨hx, hproduct⟩ := isFinite_of_sub hfinite
    have hfactor : HasFinite.IsFinite factor := isFinite_of_mul_zero hy hproduct
    exact (sameValue_sub_zero hx (isZero_double_mul_zero hfactor hy)).isZero_eq

end MatrixCalc
