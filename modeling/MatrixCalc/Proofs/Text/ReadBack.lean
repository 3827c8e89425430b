import MatrixCalc.Proofs.Text.Written

/-!
# Numbers read back

The written form of a decimal is a numeral with the value of that decimal, in full as well as with
an exponent (`Layout.decimal?_digits`). The shortest decimal of a double lies in the interval around
it, so the text of a finite entry is read as a number that tests equal to it
(`readsBack_of_isFinite`).

§1 the number of some digits · §2 the two forms · §3 entries
-/

namespace MatrixCalc

/-! ## §1 The number of some digits -/

namespace Numeral

theorem value_eq (ds : List Char) : value ds = Nat.ofDigitChars 10 ds 0 :=
  Nat.ofDigitChars_eq_foldl.symm

theorem value_toDigits (n : ℕ) : value (Nat.toDigits 10 n) = n := by
  rw [value_eq, Nat.ofDigitChars_ten_toDigits]

theorem value_append (xs ys : List Char) :
    value (xs ++ ys) = 10 ^ ys.length * value xs + value ys := by
  rw [value_eq, Nat.ofDigitChars_append, Nat.ofDigitChars_eq_ofDigitChars_zero, ← value_eq,
    ← value_eq]

theorem value_zeros (n : ℕ) : value (List.replicate n '0') = 0 := by
  rw [value_eq, Nat.ofDigitChars_replicate_zero, Nat.mul_zero]

variable {whole part rest : List Char}

theorem span_digits (hwhole : ∀ c ∈ whole, c.isDigit = true)
    (hrest : ∀ c ∈ rest.head?, c.isDigit = false) :
    (whole ++ rest).takeWhile Char.isDigit = whole ∧
      (whole ++ rest).dropWhile Char.isDigit = rest := by
  rw [List.takeWhile_append_of_pos hwhole, List.dropWhile_append_of_pos hwhole]
  cases rest with
  | nil => simp
  | cons c rest =>
    have hc : c.isDigit = false := hrest c rfl
    simp [hc]

theorem decimal?_point (hwhole : ∀ c ∈ whole, c.isDigit = true) (hne : whole ≠ [])
    (hpart : ∀ c ∈ part, c.isDigit = true) (hrest : ∀ c ∈ rest.head?, c.isDigit = false) :
    decimal? (whole ++ '.' :: (part ++ rest)) =
      (exponent? rest).map fun e => ⟨value (whole ++ part), e - part.length⟩ := by
  have hpoint : ∀ c ∈ ('.' :: (part ++ rest)).head?, c.isDigit = false := by
    rintro c ⟨⟩
    rfl
  obtain ⟨htake, hdrop⟩ := span_digits hwhole hpoint
  obtain ⟨htake', hdrop'⟩ := span_digits hpart hrest
  have hempty : whole.isEmpty = false := List.isEmpty_eq_false_iff.2 hne
  simp only [decimal?, htake, hdrop, fraction, htake', hdrop', hempty, Bool.false_and,
    Bool.false_eq_true, if_false]

theorem decimal?_whole (hwhole : ∀ c ∈ whole, c.isDigit = true) (hne : whole ≠ [])
    (es : List Char) :
    decimal? (whole ++ 'e' :: es) = (exponent? ('e' :: es)).map fun e => ⟨value whole, e⟩ := by
  have hletter : ∀ c ∈ ('e' :: es).head?, c.isDigit = false := by
    rintro c ⟨⟩
    rfl
  obtain ⟨htake, hdrop⟩ := span_digits hwhole hletter
  have hempty : whole.isEmpty = false := List.isEmpty_eq_false_iff.2 hne
  have hfraction : fraction ('e' :: es) = ([], 'e' :: es) := rfl
  simp only [decimal?, htake, hdrop, hfraction, hempty, Bool.false_and, Bool.false_eq_true,
    if_false, List.append_nil, List.length_nil, Nat.cast_zero, sub_zero]

theorem digits?_toDigits (n : ℕ) : digits? (Nat.toDigits 10 n) = some n := by
  have hall : (Nat.toDigits 10 n).all Char.isDigit = true :=
    List.all_eq_true.2 (Layout.isDigit_toDigits n)
  have hempty : (Nat.toDigits 10 n).isEmpty = false :=
    List.isEmpty_eq_false_iff.2 Nat.toDigits_ne_nil
  simp only [digits?, hall, hempty, value_toDigits, Bool.not_false, Bool.and_self, if_true]

theorem exponent?_toString (n : ℤ) : exponent? ('e' :: (toString n).toList) = some n := by
  cases n with
  | ofNat m =>
    have hsign (c : Char) (hc : c.isDigit = false) (ds : List Char) :
        Nat.toDigits 10 m ≠ c :: ds := by
      intro hcons
      have hdigit := Layout.isDigit_toDigits m c (hcons ▸ List.mem_cons_self)
      rw [hc] at hdigit
      cases hdigit
    rw [toList_toString_ofNat, exponent?, if_pos (.inl rfl)]
    · rw [digits?_toDigits]
      rfl
    · exact hsign '-' rfl
    · exact hsign '+' rfl
  | negSucc m =>
    rw [toList_toString_negSucc, exponent?, if_pos (.inl rfl), digits?_toDigits]
    rfl

end Numeral

/-! ## §2 The two forms -/

namespace Layout

variable {ds : List Char}

theorem decimal?_plain {whole part : List Char} (hwhole : ∀ c ∈ whole, c.isDigit = true)
    (hne : whole ≠ []) (hpart : ∀ c ∈ part, c.isDigit = true) :
    ∃ d, Numeral.decimal? (whole ++ '.' :: part) = some d ∧
      d.val * 10 ^ part.length = Numeral.value (whole ++ part) := by
  have hend : ∀ c ∈ ([] : List Char).head?, c.isDigit = false := by
    rintro c ⟨⟩
  have hread := Numeral.decimal?_point hwhole hne hpart hend
  rw [List.append_nil] at hread
  refine ⟨⟨Numeral.value (whole ++ part), 0 - part.length⟩, hread, ?_⟩
  rw [Decimal.val, zero_sub, zpow_neg, zpow_natCast, mul_assoc, inv_mul_cancel₀ (by positivity),
    mul_one]

theorem decimal?_fullForm (hds : ∀ c ∈ ds, c.isDigit = true) (hne : ds ≠ []) (exponent : ℤ) :
    ∃ d, Numeral.decimal? (fullForm ['.', '0'] ds exponent) = some d ∧
      d.val = Numeral.value ds * 10 ^ exponent := by
  have hshift {x : ℚ} {n : ℕ} (hn : -(n : ℤ) = exponent)
      (hx : x * 10 ^ n = Numeral.value ds) : x = Numeral.value ds * 10 ^ exponent := by
    rw [← hx, ← hn, zpow_neg, zpow_natCast, mul_assoc, mul_inv_cancel₀ (by positivity), mul_one]
  unfold fullForm
  dsimp only
  split
  next hwhole =>
    have hall : ∀ c ∈ ds ++ List.replicate exponent.toNat '0', c.isDigit = true :=
      List.forall_mem_append.2 ⟨hds, isDigit_replicate _⟩
    obtain ⟨d, hd, hval⟩ := decimal?_plain hall (by simp [hne]) (isDigit_replicate 1)
    refine ⟨d, hd, ?_⟩
    have hexp : ((exponent.toNat : ℕ) : ℤ) = exponent := Int.toNat_of_nonneg hwhole
    rw [← hexp, zpow_natCast]
    rw [Numeral.value_append, Numeral.value_append, Numeral.value_zeros,
      Numeral.value_zeros] at hval
    simp only [List.length_replicate] at hval
    push_cast at hval
    linarith
  split
  next hneg hplaces =>
    have hfront : ∀ c ∈ ds.take (ds.length - (-exponent).toNat), c.isDigit = true :=
      fun c hc => hds c (List.mem_of_mem_take hc)
    have hback : ∀ c ∈ ds.drop (ds.length - (-exponent).toNat), c.isDigit = true :=
      fun c hc => hds c (List.mem_of_mem_drop hc)
    have hsome : ds.take (ds.length - (-exponent).toNat) ≠ [] := by
      rw [Ne, List.take_eq_nil_iff, not_or]
      exact ⟨by omega, hne⟩
    obtain ⟨d, hd, hval⟩ := decimal?_plain hfront hsome hback
    rw [List.take_append_drop, List.length_drop] at hval
    exact ⟨d, hd, hshift (by omega) hval⟩
  next hneg hplaces =>
    have hpart : ∀ c ∈ List.replicate ((-exponent).toNat - ds.length) '0' ++ ds,
        c.isDigit = true := List.forall_mem_append.2 ⟨isDigit_replicate _, hds⟩
    obtain ⟨d, hd, hval⟩ := decimal?_plain (isDigit_replicate 1) (by simp) hpart
    have hzeros : Numeral.value (List.replicate 1 '0' ++
        (List.replicate ((-exponent).toNat - ds.length) '0' ++ ds)) = Numeral.value ds := by
      rw [Numeral.value_append, Numeral.value_append, Numeral.value_zeros, Numeral.value_zeros,
        Nat.mul_zero, Nat.mul_zero, Nat.zero_add, Nat.zero_add]
    rw [hzeros, List.length_append, List.length_replicate] at hval
    exact ⟨d, hd, hshift (by omega) hval⟩

theorem decimal?_exponentForm (hds : ∀ c ∈ ds, c.isDigit = true) (hne : ds ≠ []) (lead : ℤ) :
    ∃ d, Numeral.decimal? (exponentForm ds lead) = some d ∧
      d.val = Numeral.value ds * 10 ^ (lead - (ds.length - 1 : ℕ)) := by
  obtain ⟨c, cs, rfl⟩ := List.exists_cons_of_ne_nil hne
  have hfirst : ∀ x ∈ [c], x.isDigit = true := by
    intro x hx
    rw [List.mem_singleton.1 hx]
    exact hds c List.mem_cons_self
  have hexponent := Numeral.exponent?_toString lead
  cases cs with
  | nil =>
    refine ⟨⟨Numeral.value [c], lead⟩, ?_, ?_⟩
    · show Numeral.decimal? ([c] ++ 'e' :: (toString lead).toList) = _
      rw [Numeral.decimal?_whole hfirst (by simp), hexponent]
      rfl
    · rw [Decimal.val, List.length_singleton, Nat.sub_self, Nat.cast_zero, sub_zero]
  | cons next cs =>
    have hrest : ∀ x ∈ next :: cs, x.isDigit = true := fun x hx => hds x (List.mem_cons_of_mem c hx)
    have hletter : ∀ x ∈ ('e' :: (toString lead).toList).head?, x.isDigit = false := by
      rintro x ⟨⟩
      rfl
    refine ⟨⟨Numeral.value (c :: next :: cs), lead - (next :: cs).length⟩, ?_, rfl⟩
    show Numeral.decimal? ([c] ++ '.' :: ((next :: cs) ++ 'e' :: (toString lead).toList)) = _
    rw [Numeral.decimal?_point hfirst (by simp) hrest hletter, hexponent]
    rfl

/-- The written form of a decimal is a numeral with its value. -/
theorem decimal?_digits (d : Decimal) :
    ∃ e, Numeral.decimal? (entry.digits d) = some e ∧ e.val = d.val := by
  have hds := isDigit_toDigits d.coefficient
  have hne : Nat.toDigits 10 d.coefficient ≠ [] := Nat.toDigits_ne_nil
  have hlength : 0 < (Nat.toDigits 10 d.coefficient).length := Nat.length_toDigits_pos
  unfold digits
  dsimp only
  split
  · obtain ⟨e, he, hval⟩ := decimal?_fullForm hds hne d.exponent
    refine ⟨e, he, ?_⟩
    rw [hval, Numeral.value_toDigits]
    rfl
  · obtain ⟨e, he, hval⟩ := decimal?_exponentForm hds hne
      (d.exponent + (Nat.toDigits 10 d.coefficient).length - 1)
    refine ⟨e, he, ?_⟩
    have hsum : d.exponent + (Nat.toDigits 10 d.coefficient).length - 1 -
        ((Nat.toDigits 10 d.coefficient).length - 1 : ℕ) = d.exponent := by omega
    rw [hval, Numeral.value_toDigits, hsum]
    rfl

end Layout

/-! ## §3 Entries -/

namespace Numeral

theorem isNumeric_of_decimal? {c : Char} {cs : List Char} {d : Decimal}
    (h : decimal? (c :: cs) = some d) : Token.isNumeric c = true := by
  by_cases hdigit : c.isDigit = true
  · exact Token.isNumeric_of_isDigit hdigit
  by_cases hpoint : c = '.'
  · rw [hpoint]
    rfl
  have htake : (c :: cs).takeWhile Char.isDigit = [] := List.takeWhile_cons_of_neg hdigit
  have hdrop : (c :: cs).dropWhile Char.isDigit = c :: cs := List.dropWhile_cons_of_neg hdigit
  have hfraction : fraction (c :: cs) = ([], c :: cs) := by
    unfold fraction
    split
    next hcons => exact absurd (List.cons.inj hcons).1 hpoint
    next => rfl
  simp only [decimal?, htake, hdrop, hfraction] at h
  cases h

/-- No decimal is one of the words. -/
theorem magnitude?_of_decimal? {cs : List Char} {d : Decimal} (h : decimal? cs = some d) :
    magnitude? cs = some d.toFloat := by
  have hword {w : Char} {ws : List Char} (hw : Token.isNumeric w = false) :
      cs.map Char.toLower ≠ w :: ws := by
    intro heq
    obtain ⟨c, rest, rfl, hc, -⟩ := List.map_eq_cons_iff.1 heq
    have hnumeric := isNumeric_of_decimal? h
    rw [Token.toLower_of_isNumeral (by rw [Token.isNumeral, hnumeric, Bool.true_or])] at hc
    rw [hc, hw] at hnumeric
    cases hnumeric
  have hinf : cs.map Char.toLower ≠ "inf".toList := hword (w := 'i') rfl
  have hinfinity : cs.map Char.toLower ≠ "infinity".toList := hword (w := 'i') rfl
  have hnan : cs.map Char.toLower ≠ "nan".toList := hword (w := 'n') rfl
  rw [magnitude?, if_neg (not_or.2 ⟨hinf, hinfinity⟩), if_neg hnan, h]
  rfl

theorem read?_decimal {cs : List Char} {d : Decimal} (h : decimal? cs = some d) :
    read? (String.ofList cs) = some d.toFloat ∧
      read? (String.ofList ('-' :: cs)) = some (-d.toFloat) := by
  have hmagnitude := magnitude?_of_decimal? h
  constructor
  · unfold read?
    rw [String.toList_ofList]
    split
    next => cases isNumeric_of_decimal? h
    next => cases isNumeric_of_decimal? h
    next => exact hmagnitude
  · unfold read?
    rw [String.toList_ofList]
    show (magnitude? cs).map _ = _
    rw [hmagnitude]
    rfl

end Numeral

open Float.Model Float.Model.UnpackedFloat

theorem IsPositive.unpack_neg {x : Float} {v : Magnitude} (hv : v.IsDouble) (hx : IsPositive x v) :
    (-x).toModel.unpack = .finite .negative v.mantissa v.exponent hv.pos := by
  obtain ⟨hpos, hx⟩ := hx
  show (Float.Model.pack (UnpackedFloat.neg x.toModel.unpack)).unpack = _
  rw [hx]
  exact unpack_pack hv .negative

/-- The written form of a finite double other than zero is read as that double. -/
theorem read?_write {x : Float} {s : Sign} {m : ℕ} {e : ℤ} {hm : 0 < m}
    (hx : x.toModel.unpack = .finite s m e hm) :
    Numeral.read? (Layout.entry.write x) = some x := by
  have hv : (⟨m, e⟩ : Magnitude).IsDouble := isDouble_of_unpack hx
  obtain ⟨d, hd, hval⟩ := Layout.decimal?_digits (Magnitude.shortest ⟨m, e⟩)
  have hpositive : IsPositive d.toFloat ⟨m, e⟩ := by
    refine isPositive_toFloat hv ?_
    rw [hval]
    exact Magnitude.holds_shortest hv
  obtain ⟨hplain, hminus⟩ := Numeral.read?_decimal hd
  rw [Layout.write, hx]
  cases s with
  | positive =>
    obtain ⟨hpos, hunpack⟩ := hpositive
    exact hplain.trans (congrArg some (eq_of_unpack (hunpack.trans hx.symm)))
  | negative =>
    exact hminus.trans (congrArg some (eq_of_unpack ((hpositive.unpack_neg hv).trans hx.symm)))

/-- Whether the text of an entry is read as a number that tests equal to it. -/
def readsBack (x : Float) : Bool := (Numeral.read? (entryText x)).any (· == x)

/-- The text of a finite entry is read back. -/
theorem readsBack_of_isFinite {x : Float} (hx : x.isFinite = true) : readsBack x = true := by
  refine (Option.any_eq_true _ _).2 ?_
  rcases zero_or_finite hx with ⟨hzero, htext⟩ | ⟨s, m, e, hm, hunpack, -, htext, -⟩
  · refine ⟨0.0, ?_, ?_⟩
    · rw [← String.ofList_toList (s := entryText x), htext]
      decide +kernel
    · obtain ⟨-, -, rfl | ⟨rfl, -⟩ | ⟨rfl, -⟩⟩ := Float.beq_iff_ne_nan_and_eq.1 hzero <;>
        decide +kernel
  · have hnan : x ≠ Float.nan := by
      rintro rfl
      cases hx
    rw [htext]
    exact ⟨x, read?_write hunpack, Float.beq_self_iff.2 hnan⟩

end MatrixCalc
