import MatrixCalc.Proofs.Decimal.Limits
import MatrixCalc.Proofs.Text.Scanning

/-!
# The written form of an entry

The text of a finite entry is a plain numeral, or a plain numeral followed by the letter `e` and an
exponent, which is a plain numeral, too (`entryText_cases`). The size of the entry decides which
(`mem_entryText_iff`). The tokens of such a text are the signs, the digit runs and that letter
(`Token.isChunk_plain`, `Token.isChunk_exponent`).

§1 digits · §2 the two forms · §3 entries · §4 the tokens of a form · §5 the tokens of an entry
-/

namespace MatrixCalc

/-! ## §1 Digits -/

namespace Layout

theorem isDigit_toDigits (n : Nat) : ∀ c ∈ Nat.toDigits 10 n, c.isDigit = true :=
  fun _ hc => Nat.isDigit_of_mem_toDigits (by decide) (Nat.le_refl 10) hc

theorem isDigit_replicate (n : Nat) : ∀ c ∈ List.replicate n '0', c.isDigit = true := by
  intro c hc
  rw [List.eq_of_mem_replicate hc]
  rfl

theorem isDigits_fullForm {ds : List Char} (hds : ∀ c ∈ ds, c.isDigit = true) (hne : ds ≠ [])
    (exponent : Int) : Numeral.isDigits (fullForm ['.', '0'] ds exponent) = true := by
  unfold fullForm
  dsimp only
  split
  · have hwhole : ∀ c ∈ ds ++ List.replicate exponent.toNat '0', c.isDigit = true :=
      List.forall_mem_append.2 ⟨hds, isDigit_replicate _⟩
    exact Numeral.isDigits_append_point hwhole (isDigit_replicate 1) (.inr (by simp))
  split
  next hplaces =>
    refine Numeral.isDigits_append_point (fun c hc => hds c (List.mem_of_mem_take hc))
      (fun c hc => hds c (List.mem_of_mem_drop hc)) (.inl ?_)
    rw [Ne, List.take_eq_nil_iff, not_or]
    exact ⟨by omega, hne⟩
  next =>
    have hpart : ∀ c ∈ List.replicate ((-exponent).toNat - ds.length) '0' ++ ds,
        c.isDigit = true := List.forall_mem_append.2 ⟨isDigit_replicate _, hds⟩
    exact Numeral.isDigits_append_point (isDigit_replicate 1) hpart (.inl (by simp))

end Layout

/-! ## §2 The two forms -/

theorem Numeral.isPlain_signText (s : Float.Model.UnpackedFloat.Sign) {ds : List Char}
    (h : isDigits ds = true) : isPlain (String.ofList (Layout.signText s ++ ds)) = true := by
  cases s with
  | negative => simpa [isPlain, Layout.signText] using h
  | positive =>
    unfold isPlain
    rw [String.toList_ofList]
    split
    next cs hcs =>
      -- digits do not begin with a sign
      change ds = '-' :: cs at hcs
      subst hcs
      simp [isDigits, Token.isNumeric] at h
    next => exact h

theorem Numeral.toList_toString_ofNat (m : Nat) :
    (toString (Int.ofNat m)).toList = Nat.toDigits 10 m :=
  Nat.toList_repr

theorem Numeral.toList_toString_negSucc (m : Nat) :
    (toString (Int.negSucc m)).toList = '-' :: Nat.toDigits 10 (m + 1) := by
  show ("-" ++ Nat.repr (m + 1)).toList = _
  rw [String.toList_append, Nat.toList_repr]
  rfl

theorem Numeral.isPlain_toString (n : Int) :
    isPlain (String.ofList (toString n).toList) = true := by
  have hdigits (m : Nat) : isDigits (Nat.toDigits 10 m) = true :=
    isDigits_of_isDigit (Layout.isDigit_toDigits m) Nat.toDigits_ne_nil
  cases n with
  | ofNat m =>
    rw [toList_toString_ofNat]
    exact isPlain_signText .positive (hdigits m)
  | negSucc m =>
    rw [toList_toString_negSucc]
    exact isPlain_signText .negative (hdigits (m + 1))

/-- The written form of a decimal is digits, or it is digits, an `e` and a numeral. -/
theorem Layout.digits_cases (d : Decimal) :
    entry.writtenOut d.lead = true ∧ Numeral.isDigits (entry.digits d) = true ∨
      entry.writtenOut d.lead = false ∧
        ∃ ds es, Numeral.isDigits ds = true ∧ Numeral.isPlain (String.ofList es) = true ∧
          entry.digits d = ds ++ 'e' :: es := by
  have hds := isDigit_toDigits d.coefficient
  have hne : Nat.toDigits 10 d.coefficient ≠ [] := Nat.toDigits_ne_nil
  unfold Layout.digits
  dsimp only
  split
  next hfull => exact .inl ⟨hfull, isDigits_fullForm hds hne _⟩
  next hexponent =>
  refine .inr ⟨Bool.eq_false_iff.2 hexponent, _, _, ?_, ?_, rfl⟩
  · have hfirst : ∀ c ∈ (Nat.toDigits 10 d.coefficient).take 1, c.isDigit = true :=
      fun c hc => hds c (List.mem_of_mem_take hc)
    have hrest : ∀ c ∈ (Nat.toDigits 10 d.coefficient).tail, c.isDigit = true :=
      fun c hc => hds c (List.mem_of_mem_tail hc)
    have htake : (Nat.toDigits 10 d.coefficient).take 1 ≠ [] := by
      rw [Ne, List.take_eq_nil_iff, not_or]
      exact ⟨Nat.one_ne_zero, hne⟩
    split
    · rw [List.append_nil]
      exact Numeral.isDigits_of_isDigit hfirst htake
    · exact Numeral.isDigits_append_point hfirst hrest (.inl htake)
  · exact Numeral.isPlain_toString _

theorem Layout.mem_digits_iff (d : Decimal) :
    'e' ∈ entry.digits d ↔ entry.writtenOut d.lead = false := by
  rcases digits_cases d with ⟨hfull, hdigits⟩ | ⟨hexponent, ds, es, -, -, heq⟩
  · simp only [Numeral.isDigits, Bool.and_eq_true, List.all_eq_true] at hdigits
    rw [hfull]
    exact iff_of_false (fun he => absurd (hdigits.1.1 'e' he) (by decide)) Bool.false_ne_true.symm
  · rw [heq]
    exact iff_of_true (by simp) hexponent

/-! ## §3 Entries -/

open Float.Model (UnpackedFloat)

/-- A finite entry is a zero, or it has a sign, a mantissa and an exponent. -/
theorem zero_or_finite {x : Float} (hx : x.isFinite = true) :
    (x == 0.0) = true ∧ (entryText x).toList = ['0', '.', '0'] ∨
      ∃ s m e hm, x.toModel.unpack = .finite s m e hm ∧ (x == 0.0) = false ∧
        entryText x = Layout.entry.write x ∧
        (entryText x).toList =
          Layout.signText s ++ Layout.entry.digits (Magnitude.shortest ⟨m, e⟩) := by
  unfold entryText
  split
  next hzero => exact .inl ⟨hzero, by decide +kernel⟩
  next hzero =>
  change x.toModel.unpack.isFinite = true at hx
  change ¬ UnpackedFloat.beq x.toModel.unpack (.zero .positive) = true at hzero
  rw [Layout.write, String.toList_ofList]
  cases hunpack : x.toModel.unpack with
  | notANumber =>
    rw [hunpack] at hx
    cases hx
  | infinity s =>
    rw [hunpack] at hx
    cases hx
  | zero s =>
    rw [hunpack] at hzero
    exact absurd rfl hzero
  | finite s m e hm => exact .inr ⟨s, m, e, hm, rfl, Bool.eq_false_iff.2 hzero, rfl, rfl⟩

/-- The text of a finite entry is a plain numeral, or a plain numeral, an `e` and another. -/
theorem entryText_cases {x : Float} (hx : x.isFinite = true) :
    Numeral.isPlain (entryText x) = true ∨
      ∃ cs es, Numeral.isPlain (String.ofList cs) = true ∧
        Numeral.isPlain (String.ofList es) = true ∧ (entryText x).toList = cs ++ 'e' :: es := by
  rcases zero_or_finite hx with ⟨-, htext⟩ | ⟨s, m, e, hm, -, -, -, htext⟩
  · refine .inl ?_
    rw [← String.ofList_toList (s := entryText x), htext]
    rfl
  rcases Layout.digits_cases (Magnitude.shortest ⟨m, e⟩) with ⟨-, hd⟩ | ⟨-, ds, es, hds, hes, heq⟩
  · refine .inl ?_
    rw [← String.ofList_toList (s := entryText x), htext]
    exact Numeral.isPlain_signText s hd
  · refine .inr ⟨Layout.signText s ++ ds, es, Numeral.isPlain_signText s hds, hes, ?_⟩
    rw [htext, heq, List.append_assoc]

/-- The entries that are written in full: zero, and those from `0.0001` up to below `1e16` in
absolute value. -/
def isWrittenOut (x : Float) : Bool := x == 0.0 || (0.0001 ≤ x.abs && x.abs < 1e16)

/-- The text of an entry has an exponent exactly if the entry is too small or too large. -/
theorem mem_entryText_iff {x : Float} (hx : x.isFinite = true) :
    'e' ∈ (entryText x).toList ↔ isWrittenOut x = false := by
  unfold isWrittenOut
  rcases zero_or_finite hx with ⟨hzero, htext⟩ | ⟨s, m, e, hm, hunpack, hzero, -, htext⟩
  · rw [htext, hzero, Bool.true_or]
    decide
  have hv : (⟨m, e⟩ : Magnitude).IsDouble := isDouble_of_unpack hunpack
  have habs := isPositive_abs hunpack
  have hlow : (0.0001 : Float) ≤ x.abs ↔ -4 ≤ (Magnitude.shortest ⟨m, e⟩).lead := by
    have hlimit : IsPositive 0.0001 ⟨7378697629483821, -66⟩ := ⟨by decide, rfl⟩
    rw [hlimit.le_iff habs, ← Magnitude.lead_shortest_lt_low hv, not_lt]
  have hhigh : x.abs < (1e16 : Float) ↔ (Magnitude.shortest ⟨m, e⟩).lead < 16 := by
    have hlimit : IsPositive 1e16 ⟨5000000000000000, 1⟩ := ⟨by decide, rfl⟩
    rw [habs.lt_iff hlimit, Magnitude.lead_shortest_lt_high hv]
  have hsign : 'e' ∉ Layout.signText s := by
    cases s <;> decide
  rw [htext, List.mem_append, or_iff_right hsign, Layout.mem_digits_iff, hzero, Bool.false_or,
    decide_eq_decide.2 hlow, decide_eq_decide.2 hhigh]
  rfl

theorem entryText_congr {x y : Float} (h : (y == x) = true) : entryText y = entryText x := by
  obtain ⟨-, -, rfl | ⟨rfl, rfl⟩ | ⟨rfl, rfl⟩⟩ := Float.beq_iff_ne_nan_and_eq.1 h
  · rfl
  · decide +kernel
  · decide +kernel

/-! ## §4 The tokens of a form -/

namespace Token

/-- The tokens of a plain numeral: its sign, if it has one, and its digits. -/
def ofPlain (cs : List Char) : List Token :=
  match cs with
  | '-' :: ds => [minus, digits (String.ofList ds)]
  | ds => [digits (String.ofList ds)]

theorem lexes_digits {ds : List Char} (h : Numeral.isDigits ds = true) :
    Lexes ds [digits (String.ofList ds)] := by
  simp only [Numeral.isDigits, Bool.and_eq_true, List.any_eq_true, List.all_eq_true] at h
  obtain ⟨⟨hall, c, hc, -⟩, -⟩ := h
  cases ds with
  | nil => cases hc
  | cons d ds =>
    obtain ⟨hd, hds⟩ := List.forall_mem_cons.1 hall
    have hletter := isLetter_of_isNumeric hd
    have htake : ds.takeWhile isNumeric = ds := List.takeWhile_eq_self_iff.2 hds
    have hdrop : ds.dropWhile isNumeric = [] := List.dropWhile_eq_nil_iff.2 hds
    have hcut : cut? d ds = some ⟨digits (String.ofList (d :: ds)), ds.length + 1, []⟩ := by
      simp only [cut?, hletter, hd, cutRun, htake, hdrop, if_true, Bool.false_eq_true, if_false]
    exact .cons hcut .nil

theorem lexes_plain {cs : List Char} (h : Numeral.isPlain (String.ofList cs) = true) :
    Lexes cs (ofPlain cs) := by
  unfold ofPlain
  split
  next ds =>
    have hcut : cut? '-' ds = some ⟨minus, 1, ds⟩ := rfl
    exact .cons hcut (lexes_digits (by simpa [Numeral.isPlain] using h))
  next hminus =>
    have hdigits : Numeral.isDigits cs = true := by
      unfold Numeral.isPlain at h
      rw [String.toList_ofList] at h
      split at h
      next ds => exact absurd rfl (hminus ds)
      next => exact h
    exact lexes_digits hdigits

theorem isNumeral_of_isPlain {cs : List Char}
    (h : Numeral.isPlain (String.ofList cs) = true) : ∀ c ∈ cs, isNumeral c = true := by
  have hdigits {ds : List Char} (hds : Numeral.isDigits ds = true) :
      ∀ c ∈ ds, isNumeral c = true := by
    simp only [Numeral.isDigits, Bool.and_eq_true, List.all_eq_true] at hds
    intro c hc
    rw [isNumeral, hds.1.1 c hc, Bool.true_or]
  unfold Numeral.isPlain at h
  rw [String.toList_ofList] at h
  split at h
  next ds => exact List.forall_mem_cons.2 ⟨rfl, hdigits h⟩
  next => exact hdigits h

theorem isLetter_of_isNumeral {c : Char} (h : isNumeral c = true) : isLetter c = false := by
  rw [isNumeral, Bool.or_eq_true, beq_iff_eq] at h
  rcases h with h | rfl
  · exact isLetter_of_isNumeric h
  · rfl

/-- A text without spacing and its tokens. -/
structure IsChunk (cs : List Char) (ts : List Token) : Prop where
  lexes : Lexes cs ts
  ne_nil : cs ≠ []
  unspaced : ∀ c ∈ cs, isSpacing c = false

theorem isChunk_plain {cs : List Char} (h : Numeral.isPlain (String.ofList cs) = true) :
    IsChunk cs (ofPlain cs) := by
  refine ⟨lexes_plain h, ?_, fun c hc => isSpacing_of_isNumeral (isNumeral_of_isPlain h c hc)⟩
  rintro rfl
  cases h

theorem isChunk_exponent {cs es : List Char}
    (hcs : Numeral.isPlain (String.ofList cs) = true)
    (hes : Numeral.isPlain (String.ofList es) = true) :
    IsChunk (cs ++ 'e' :: es) (ofPlain cs ++ word "e" :: ofPlain es) := by
  have hcut : cut? 'e' [] = some ⟨word "e", 1, []⟩ := rfl
  have hletter : Lexes ['e'] [word "e"] := .cons hcut .nil
  have hafter : Boundary ['e'] es := by
    intro c hc d hd
    obtain rfl : 'e' = c := by simpa using hc
    simp [sameRun, isLetter_of_isNumeral (isNumeral_of_isPlain hes d (List.mem_of_mem_head? hd)),
      show isNumeric 'e' = false from rfl, show isSpacing 'e' = false from rfl]
  have hbefore : Boundary cs ('e' :: es) := by
    intro c hc d hd
    obtain rfl : 'e' = d := by simpa using hd
    simp [sameRun, isLetter_of_isNumeral (isNumeral_of_isPlain hcs c (List.mem_of_getLast? hc)),
      show isNumeric 'e' = false from rfl, show isSpacing 'e' = false from rfl]
  refine ⟨(lexes_plain hcs).append (hletter.append (lexes_plain hes) hafter) hbefore, by simp, ?_⟩
  refine List.forall_mem_append.2 ⟨(isChunk_plain hcs).unspaced, List.forall_mem_cons.2 ⟨rfl, ?_⟩⟩
  exact (isChunk_plain hes).unspaced

end Token

/-! ## §5 The tokens of an entry -/

def mantissaText (x : Float) : String :=
  String.ofList ((entryText x).toList.takeWhile (· != 'e'))

def entryTokens (x : Float) : List Token :=
  match (entryText x).toList.dropWhile (· != 'e') with
  | [] => Token.ofPlain (mantissaText x).toList
  | _ :: es => Token.ofPlain (mantissaText x).toList ++ .word "e" :: Token.ofPlain es

theorem mantissaText_of_notMem {x : Float} (h : 'e' ∉ (entryText x).toList) :
    mantissaText x = entryText x := by
  have htake : (entryText x).toList.takeWhile (· != 'e') = (entryText x).toList := by
    refine List.takeWhile_eq_self_iff.2 fun c hc => ?_
    rw [bne_iff_ne]
    rintro rfl
    exact h hc
  rw [mantissaText, htake, String.ofList_toList]

theorem entryTokens_of_notMem {x : Float} (h : 'e' ∉ (entryText x).toList) :
    entryTokens x = Token.ofPlain (entryText x).toList := by
  have hdrop : (entryText x).toList.dropWhile (· != 'e') = [] := by
    refine List.dropWhile_eq_nil_iff.2 fun c hc => ?_
    rw [bne_iff_ne]
    rintro rfl
    exact h hc
  rw [entryTokens, hdrop, mantissaText_of_notMem h]

/-- What comes before the exponent is a plain numeral, and the tokens are those of the text. -/
theorem isPlain_mantissaText_isChunk {x : Float} (hx : x.isFinite = true) :
    Numeral.isPlain (mantissaText x) = true ∧
      Token.IsChunk (entryText x).toList (entryTokens x) := by
  rcases entryText_cases hx with h | ⟨cs, es, hcs, hes, heq⟩
  · have hplain : Numeral.isPlain (String.ofList (entryText x).toList) = true := by
      rwa [String.ofList_toList]
    have hnone : 'e' ∉ (entryText x).toList := fun he =>
      absurd (Token.isNumeral_of_isPlain hplain 'e' he) (by decide)
    rw [mantissaText_of_notMem hnone, entryTokens_of_notMem hnone]
    exact ⟨h, Token.isChunk_plain hplain⟩
  · have hbefore : ∀ c ∈ cs, (c != 'e') = true := by
      intro c hc
      rw [bne_iff_ne]
      rintro rfl
      exact absurd (Token.isNumeral_of_isPlain hcs 'e' hc) (by decide)
    have hmantissa : mantissaText x = String.ofList cs := by
      rw [mantissaText, heq, List.takeWhile_append_of_pos hbefore]
      simp
    have htokens : entryTokens x = Token.ofPlain cs ++ .word "e" :: Token.ofPlain es := by
      rw [entryTokens, hmantissa, heq, List.dropWhile_append_of_pos hbefore, String.toList_ofList]
      simp
    rw [hmantissa, htokens, heq]
    exact ⟨hcs, Token.isChunk_exponent hcs hes⟩

end MatrixCalc
