import MatrixCalc.Token.Lexer
import Mathlib.Data.List.Basic

/-!
# Lexing texts that are put together

`Lexes` says which tokens a text has, apart from where they stand. The tokens of two texts in a row
are those of the one and those of the other, unless the first text ends within a run that the second
goes on with.
-/

namespace MatrixCalc

namespace Token

/-! ## §1 The tokens of a text -/

/-- `Lexes cs ts`: the text consists of these tokens. -/
inductive Lexes : List Char → List Token → Prop where
  | nil : Lexes [] []
  | cons {c : Char} {cs : List Char} {t : Cut} {ts : List Token} (hcut : cut? c cs = some t)
      (h : Lexes t.rest ts) : Lexes (c :: cs) (t.token :: ts)

theorem lexFrom_of_cut {c : Char} {cs : List Char} {t : Cut} (h : cut? c cs = some t)
    (column : Nat) :
    lexFrom column (c :: cs) =
      (lexFrom (column + t.width) t.rest).map (⟨t.token, column⟩ :: ·) := by
  rw [lexFrom]
  split
  · next hnone => rw [h] at hnone; cases hnone
  · next u hu =>
    rw [h] at hu
    cases hu
    cases lexFrom (column + t.width) t.rest <;> rfl

theorem Lexes.exists_lexFrom {cs : List Char} {ts : List Token} (h : Lexes cs ts) :
    ∀ column, ∃ placed, lexFrom column cs = .ok placed ∧ placed.map Placed.token = ts := by
  induction h with
  | nil => exact fun column => ⟨[], by rw [lexFrom], rfl⟩
  | cons hcut _ ih =>
    intro column
    obtain ⟨placed, hp, htokens⟩ := ih (column + _)
    exact ⟨_ :: placed, by rw [lexFrom_of_cut hcut, hp]; rfl, by rw [List.map_cons, htokens]⟩

theorem lexes_of_lexFrom {column : Nat} {cs : List Char} {placed : List Placed}
    (h : lexFrom column cs = .ok placed) : Lexes cs (placed.map Placed.token) := by
  fun_induction lexFrom column cs generalizing placed with
  | case1 column =>
    cases h
    exact .nil
  | case2 column c cs hcut => cases h
  | case3 column c cs t hcut f hf ih => cases h
  | case4 column c cs t hcut rest hrest ih =>
    cases h
    exact .cons hcut (ih hrest)

/-- There are no more tokens than characters. -/
theorem Lexes.length_le {cs : List Char} {ts : List Token} (h : Lexes cs ts) :
    ts.length ≤ cs.length := by
  induction h with
  | nil => exact Nat.le_refl _
  | cons hcut _ ih => exact Nat.succ_le_succ (Nat.le_trans ih (length_rest_le hcut))

/-! ## §2 Texts in a row -/

/-- Digits are no letters. -/
theorem isLetter_of_isNumeric {c : Char} (h : isNumeric c = true) : isLetter c = false := by
  have hhigh : c.val ≤ '9'.val := by
    simp only [isNumeric, Bool.or_eq_true, Bool.and_eq_true, decide_eq_true_eq, beq_iff_eq] at h
    rcases h with ⟨-, hc⟩ | rfl
    · exact hc
    · decide
  refine Bool.eq_false_iff.2 fun hletter => ?_
  rw [isLetter, Bool.and_eq_true, decide_eq_true_eq] at hletter
  exact absurd (UInt32.le_trans hletter.1 hhigh) (by decide)

/-- Spacing is neither letters nor digits. -/
theorem classes_of_isSpacing {c : Char} (h : isSpacing c = true) :
    isLetter c = false ∧ isNumeric c = false := by
  simp only [isSpacing, Bool.or_eq_true, beq_iff_eq] at h
  rcases h with (((rfl | rfl) | rfl) | rfl) | rfl <;> decide

theorem classes_of_isNumeric {c : Char} (h : isNumeric c = true) :
    isLetter c = false ∧ isSpacing c = false := by
  refine ⟨isLetter_of_isNumeric h, Bool.eq_false_iff.2 fun hspacing => ?_⟩
  rw [(classes_of_isSpacing hspacing).2] at h
  cases h

theorem classes_of_isLetter {c : Char} (h : isLetter c = true) :
    isNumeric c = false ∧ isSpacing c = false := by
  constructor
  · refine Bool.eq_false_iff.2 fun hnumeric => ?_
    rw [isLetter_of_isNumeric hnumeric] at h
    cases h
  · refine Bool.eq_false_iff.2 fun hspacing => ?_
    rw [(classes_of_isSpacing hspacing).1] at h
    cases h

/-- Two characters that stand in one run if they are next to each other. -/
def sameRun (c d : Char) : Bool :=
  isLetter c && isLetter d || isNumeric c && isNumeric d || isSpacing c && isSpacing d

/-- A letter goes on only with letters. -/
theorem sameRun_of_isLetter {c d : Char} (h : isLetter c = true) : sameRun c d = isLetter d := by
  simp [sameRun, h, classes_of_isLetter h]

theorem sameRun_of_isNumeric {c d : Char} (h : isNumeric c = true) :
    sameRun c d = isNumeric d := by
  simp [sameRun, h, classes_of_isNumeric h]

theorem sameRun_of_isSpacing {c d : Char} (h : isSpacing c = true) :
    sameRun c d = isSpacing d := by
  simp [sameRun, h, classes_of_isSpacing h]

/-- No run goes over the boundary between two texts. -/
def Boundary (xs ys : List Char) : Prop :=
  ∀ c ∈ xs.getLast?, ∀ d ∈ ys.head?, sameRun c d = false

/-- A character that is in no run. -/
def isApart (c : Char) : Bool := !isLetter c && !isNumeric c && !isSpacing c

theorem boundary_of_last {c : Char} (hc : isApart c = true) (xs ys : List Char) :
    Boundary (xs ++ [c]) ys := by
  intro last hlast d _
  obtain rfl : c = last := by simpa using hlast
  simp_all [isApart, sameRun]

theorem boundary_of_first {c : Char} (hc : isApart c = true) (xs ys : List Char) :
    Boundary xs (c :: ys) := by
  rintro last _ d ⟨⟩
  simp_all [isApart, sameRun]

/-- A run that ends within a text ends there also if another text follows, and one that ends with
the text does if the other text begins outside its class. -/
theorem cutRun_append (make : String → Token) {p : Char → Bool} (c : Char) {cs ys : List Char}
    (h : cs.dropWhile p = [] → ∀ d ∈ ys.head?, p d = false) :
    cutRun make p c (cs ++ ys) =
      { cutRun make p c cs with rest := (cutRun make p c cs).rest ++ ys } := by
  have hboth : (cs ++ ys).takeWhile p = cs.takeWhile p ∧
      (cs ++ ys).dropWhile p = cs.dropWhile p ++ ys := by
    induction cs with
    | nil =>
      cases ys with
      | nil => exact ⟨rfl, rfl⟩
      | cons d ys =>
        have hd : p d = false := h rfl d rfl
        simp [hd]
    | cons e cs ih =>
      by_cases he : p e = true
      · simp only [List.dropWhile_cons, he, if_true] at h
        simp [he, ih h]
      · simp [he]
  simp only [cutRun, hboth.1, hboth.2]

/-- If a run takes all of a text, the last character of that text is of its class. -/
theorem class_of_getLast {p : Char → Bool} {c last : Char} {cs : List Char} (hc : p c = true)
    (h : cs.dropWhile p = []) (hlast : last ∈ (c :: cs).getLast?) : p last = true := by
  have hall : ∀ d ∈ cs, p d = true := by
    rw [← List.takeWhile_append_dropWhile (p := p) (l := cs), h, List.append_nil]
    exact fun d hd => List.all_eq_true.1 List.all_takeWhile d hd
  rcases List.mem_cons.1 (List.mem_of_getLast? hlast) with rfl | hmem
  · exact hc
  · exact hall last hmem

theorem cut?_append {c : Char} {cs ys : List Char} {t : Cut} (h : cut? c cs = some t)
    (hb : Boundary (c :: cs) ys) : cut? c (cs ++ ys) = some { t with rest := t.rest ++ ys } := by
  -- a run that takes the whole of the first text is stopped by the first character of the second
  have hstop : ∀ p : Char → Bool, p c = true →
      (∀ x d, p x = true → p d = true → sameRun x d = true) →
      cs.dropWhile p = [] → ∀ d ∈ ys.head?, p d = false := by
    intro p hc hp hdrop d hd
    obtain ⟨last, hlast⟩ : ∃ last, last ∈ (c :: cs).getLast? :=
      ⟨_, List.getLast?_eq_some_getLast (List.cons_ne_nil c cs)⟩
    by_contra hpd
    have hrun := hp last d (class_of_getLast hc hdrop hlast) (by simpa using hpd)
    rw [hb last hlast d hd] at hrun
    cases hrun
  unfold cut? at h ⊢
  split at h
  · next hc =>
    cases h
    rw [if_pos hc, cutRun_append _ _ (hstop _ hc fun x d hx hd => by simp [sameRun, hx, hd])]
  split at h
  · next hl hc =>
    cases h
    rw [if_neg hl, if_pos hc,
      cutRun_append _ _ (hstop _ hc fun x d hx hd => by simp [sameRun, hx, hd])]
  split at h
  · next hl hn hc =>
    cases h
    rw [if_neg hl, if_neg hn, if_pos hc,
      cutRun_append _ _ (hstop _ hc fun x d hx hd => by simp [sameRun, hx, hd])]
  · next hl hn hs =>
    obtain ⟨mark, hmark, rfl⟩ := Option.map_eq_some_iff.1 h
    rw [if_neg hl, if_neg hn, if_neg hs, hmark]
    rfl

theorem rest_suffix {c : Char} {cs : List Char} {t : Cut} (h : cut? c cs = some t) :
    t.rest <:+ cs := by
  unfold cut? at h
  split at h
  · cases h; exact List.dropWhile_suffix _
  split at h
  · cases h; exact List.dropWhile_suffix _
  split at h
  · cases h; exact List.dropWhile_suffix _
  · obtain ⟨_, _, rfl⟩ := Option.map_eq_some_iff.1 h
    exact List.suffix_rfl

/-- What follows the first token ends where the text does. -/
theorem Boundary.rest {c : Char} {cs ys : List Char} {t : Cut} (hb : Boundary (c :: cs) ys)
    (h : cut? c cs = some t) : Boundary t.rest ys := by
  obtain ⟨front, rfl⟩ := rest_suffix h
  intro last hlast
  refine hb last ?_
  rw [← List.cons_append, List.getLast?_append, Option.mem_def.1 hlast]
  rfl

theorem Lexes.append {xs ys : List Char} {ts us : List Token} (hx : Lexes xs ts)
    (hy : Lexes ys us) (hb : Boundary xs ys) : Lexes (xs ++ ys) (ts ++ us) := by
  induction hx with
  | nil => exact hy
  | cons hcut _ ih =>
    have h := Lexes.cons (cut?_append hcut hb) (ih (hb.rest hcut))
    exact h

end Token

end MatrixCalc
