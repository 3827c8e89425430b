import MatrixCalc.Proofs.Text.Items
import Mathlib.Data.List.Chain
import Mathlib.Data.List.TakeWhile

/-!
# The pieces of a text

Lexing loses nothing: the tokens of a text are the one way to cut it into pieces that are tokens,
each as long as it goes, and put together the pieces are the text again (`Token.lex_eq_ok_iff`). A
text can be cut if all its characters are in the alphabet of tokens; the fault of any other text is
its first character outside of it (`Token.lex_eq_error_iff`).

§1 bytes and characters · §2 pieces · §3 lexing and cutting · §4 faults
-/

namespace MatrixCalc

/-! ## §1 Bytes and characters -/

def Text.byteLength (cs : List Char) : Nat := (String.ofList cs).utf8ByteSize

namespace Text

@[simp] theorem byteLength_nil : byteLength [] = 0 := rfl

@[simp] theorem byteLength_append (cs ds : List Char) :
    byteLength (cs ++ ds) = byteLength cs + byteLength ds := by
  simp only [byteLength, String.ofList_append, String.utf8ByteSize_append]

theorem byteLength_toList (s : String) : byteLength s.toList = s.utf8ByteSize := by
  rw [byteLength, String.ofList_toList]

end Text

namespace Token

/-- The characters that tokens are made of. -/
def alphabet : List Char :=
  "abcdefghijklmnopqrstuvwxyz0123456789.-+*()[]; \t\x0c\r\n".toList

theorem mem_alphabet_of_between {c low high : Char} (hlow : low ≤ c) (hhigh : c ≤ high)
    (h : ∀ n ∈ List.range (high.toNat + 1), low.toNat ≤ n → Char.ofNat n ∈ alphabet) :
    c ∈ alphabet := by
  rw [Char.le_def, UInt32.le_iff_toNat_le] at hlow hhigh
  rw [← Char.ofNat_toNat c]
  exact h _ (List.mem_range.2 (Nat.lt_succ_of_le hhigh)) hlow

theorem mem_alphabet_of_isLetter {c : Char} (h : isLetter c = true) : c ∈ alphabet := by
  simp only [isLetter, Bool.and_eq_true, decide_eq_true_eq] at h
  exact mem_alphabet_of_between h.1 h.2 (by decide +kernel)

theorem mem_alphabet_of_isNumeric {c : Char} (h : isNumeric c = true) : c ∈ alphabet := by
  simp only [isNumeric, Bool.or_eq_true, Bool.and_eq_true, decide_eq_true_eq, beq_iff_eq] at h
  rcases h with h | rfl
  · exact mem_alphabet_of_between h.1 h.2 (by decide +kernel)
  · decide

theorem mem_alphabet_iff {c : Char} :
    c ∈ alphabet ↔
      isLetter c = true ∨ isNumeric c = true ∨ isSpacing c = true ∨ (ofMark? c).isSome = true := by
  constructor
  · intro hc
    have hall : (alphabet.all fun c => isLetter c || (isNumeric c || (isSpacing c ||
      (ofMark? c).isSome))) = true := by decide
    simpa using List.all_eq_true.1 hall c hc
  · rintro (h | h | h | h)
    · exact mem_alphabet_of_isLetter h
    · exact mem_alphabet_of_isNumeric h
    · simp only [isSpacing, Bool.or_eq_true, beq_iff_eq] at h
      rcases h with (((rfl | rfl) | rfl) | rfl) | rfl <;> decide
    · unfold ofMark? at h
      split at h <;> first | decide | cases h

theorem byteLength_of_alphabet {cs : List Char} (h : ∀ c ∈ cs, c ∈ alphabet) :
    Text.byteLength cs = cs.length := by
  have hone : (alphabet.all fun c => c.utf8Size == 1) = true := by decide
  induction cs with
  | nil => rfl
  | cons c cs ih =>
    obtain ⟨hc, hcs⟩ := List.forall_mem_cons.1 h
    have hfirst : Text.byteLength [c] = 1 := by
      rw [← eq_of_beq (List.all_eq_true.1 hone c hc)]
      exact String.utf8ByteSize_singleton
    rw [← List.singleton_append, Text.byteLength_append, ih hcs, hfirst]
    rw [List.length_append, List.length_singleton]

/-! ## §2 Pieces -/

/-- `t.Writes run`: the token is written as this run of characters. Spacing of any kind and length
is one and the same token. -/
inductive Writes : Token → List Char → Prop where
  | word {run : List Char} (hne : run ≠ []) (h : ∀ c ∈ run, isLetter c = true) :
      Writes (word (String.ofList run)) run
  | digits {run : List Char} (hne : run ≠ []) (h : ∀ c ∈ run, isNumeric c = true) :
      Writes (digits (String.ofList run)) run
  | space {run : List Char} (hne : run ≠ []) (h : ∀ c ∈ run, isSpacing c = true) :
      Writes space run
  | mark {c : Char} {t : Token} (h : ofMark? c = some t) : Writes t [c]

/-- Whether two tokens would run into one if they stood next to each other. -/
def joins : Token → Token → Bool
  | word _, word _ | digits _, digits _ | space, space => true
  | _, _ => false

structure Piece where
  token : Token
  run : List Char

/-- A text cut into tokens, none of which is only a part of a longer one. -/
structure IsCut (pieces : List Piece) : Prop where
  writes : ∀ p ∈ pieces, p.token.Writes p.run
  apart : pieces.IsChain fun p q => p.token.joins q.token = false

/-- The tokens of some pieces, each at the column where the bytes before it end. -/
def layOut : Nat → List Piece → List Placed
  | _, [] => []
  | column, p :: pieces => ⟨p.token, column⟩ :: layOut (column + Text.byteLength p.run) pieces

theorem layOut_append (column : Nat) (ps qs : List Piece) :
    layOut column (ps ++ qs) =
      layOut column ps ++ layOut (column + Text.byteLength (ps.flatMap Piece.run)) qs := by
  induction ps generalizing column with
  | nil => rfl
  | cons p ps ih =>
    rw [List.cons_append, layOut, ih, layOut, List.flatMap_cons, Text.byteLength_append,
      List.cons_append, Nat.add_assoc]

theorem map_token_layOut (column : Nat) (ps : List Piece) :
    (layOut column ps).map Placed.token = ps.map Piece.token := by
  induction ps generalizing column with
  | nil => rfl
  | cons p ps ih => rw [layOut, List.map_cons, ih, List.map_cons]

theorem Writes.ne_nil {t : Token} {run : List Char} (h : t.Writes run) : run ≠ [] := by
  cases h with
  | word hne h => exact hne
  | digits hne h => exact hne
  | space hne h => exact hne
  | mark h => exact List.cons_ne_nil _ _

theorem Writes.mem_alphabet {t : Token} {run : List Char} (h : t.Writes run) :
    ∀ c ∈ run, c ∈ alphabet := by
  intro c hc
  rw [mem_alphabet_iff]
  cases h with
  | word hne h => exact .inl (h c hc)
  | digits hne h => exact .inr (.inl (h c hc))
  | space hne h => exact .inr (.inr (.inl (h c hc)))
  | mark h =>
    obtain rfl := List.mem_singleton.1 hc
    rw [h]
    exact .inr (.inr (.inr rfl))

/-- Whether the run of a token would go on with a character. -/
def goesOn : Token → Char → Bool
  | word _, d => isLetter d
  | digits _, d => isNumeric d
  | space, d => isSpacing d
  | _, _ => false

/-- The class of a run is that of each of its characters. -/
theorem Writes.sameRun_eq {t : Token} {run : List Char} (h : t.Writes run) {c : Char}
    (hc : c ∈ run) (d : Char) : sameRun c d = t.goesOn d := by
  cases h with
  | word hne h => exact sameRun_of_isLetter (h c hc)
  | digits hne h => exact sameRun_of_isNumeric (h c hc)
  | space hne h => exact sameRun_of_isSpacing (h c hc)
  | mark h =>
    obtain rfl := List.mem_singleton.1 hc
    unfold ofMark? at h
    split at h <;> cases h <;> rfl

theorem Writes.goesOn_eq {u : Token} {next : List Char} (h : u.Writes next) {d : Char}
    (hd : d ∈ next) (t : Token) : t.goesOn d = t.joins u := by
  cases h with
  | word hne h =>
    have hd := h d hd
    cases t <;> simp [goesOn, joins, hd, classes_of_isLetter hd]
  | digits hne h =>
    have hd := h d hd
    cases t <;> simp [goesOn, joins, hd, classes_of_isNumeric hd]
  | space hne h =>
    have hd := h d hd
    cases t <;> simp [goesOn, joins, hd, classes_of_isSpacing hd]
  | mark h =>
    obtain rfl := List.mem_singleton.1 hd
    unfold ofMark? at h
    split at h <;> cases h <;> cases t <;> rfl

/-- Two runs are apart if their tokens do not join. -/
theorem Writes.boundary_iff {t u : Token} {run next : List Char} (ht : t.Writes run)
    (hu : u.Writes next) (rest : List Char) :
    Boundary run (next ++ rest) ↔ t.joins u = false := by
  obtain ⟨d, ds, rfl⟩ := List.exists_cons_of_ne_nil hu.ne_nil
  have hjoins : ∀ c ∈ run, sameRun c d = t.joins u := fun c hc =>
    (ht.sameRun_eq hc d).trans (hu.goesOn_eq List.mem_cons_self t)
  constructor
  · intro h
    have hlast := List.getLast_mem ht.ne_nil
    rw [← hjoins _ hlast]
    exact h _ (List.getLast?_eq_some_getLast ht.ne_nil) d rfl
  · rintro h c hc _ ⟨⟩
    rw [hjoins c (List.mem_of_getLast? hc), h]

/-- A run of one class is cut off whole. -/
theorem cutRun_of_forall (make : String → Token) {p : Char → Bool} (c : Char) {cs : List Char}
    (h : ∀ d ∈ cs, p d = true) :
    cutRun make p c cs = ⟨make (String.ofList (c :: cs)), cs.length + 1, []⟩ := by
  simp only [cutRun, List.takeWhile_eq_self_iff.2 h, List.dropWhile_eq_nil_iff.2 h]

theorem Writes.cut? {t : Token} {c : Char} {cs : List Char} (h : t.Writes (c :: cs)) :
    Token.cut? c cs = some ⟨t, cs.length + 1, []⟩ := by
  generalize hrun : c :: cs = run at h
  unfold Token.cut?
  cases h with
  | word hne h =>
    subst hrun
    obtain ⟨hc, hcs⟩ := List.forall_mem_cons.1 h
    rw [if_pos hc, cutRun_of_forall _ c hcs]
  | digits hne h =>
    subst hrun
    obtain ⟨hc, hcs⟩ := List.forall_mem_cons.1 h
    rw [if_neg (by simp [isLetter_of_isNumeric hc]), if_pos hc, cutRun_of_forall _ c hcs]
  | space hne h =>
    subst hrun
    obtain ⟨hc, hcs⟩ := List.forall_mem_cons.1 h
    obtain ⟨hletter, hnumeric⟩ := classes_of_isSpacing hc
    rw [if_neg (by simp [hletter]), if_neg (by simp [hnumeric]), if_pos hc,
      cutRun_of_forall _ c hcs]
  | mark h =>
    cases hrun
    unfold ofMark? at h
    split at h <;> cases h <;> rfl

/-- The token that is cut off a text is written as the run before what follows it, and that run goes
on as long as it can. -/
theorem writes_of_cut? {c : Char} {cs : List Char} {t : Cut} (h : Token.cut? c cs = some t) :
    ∃ run, c :: cs = run ++ t.rest ∧ run.length = t.width ∧ t.token.Writes run ∧
      ∀ d ∈ t.rest.head?, t.token.goesOn d = false := by
  have hsplit (p : Char → Bool) : c :: cs = (c :: cs.takeWhile p) ++ cs.dropWhile p := by
    rw [List.cons_append, List.takeWhile_append_dropWhile]
  have hrun {p : Char → Bool} (hc : p c = true) : ∀ d ∈ c :: cs.takeWhile p, p d = true :=
    List.forall_mem_cons.2 ⟨hc, List.all_eq_true.1 List.all_takeWhile⟩
  have hend (p : Char → Bool) : ∀ d ∈ (cs.dropWhile p).head?, p d = false := by
    intro d hd
    have h := List.head?_dropWhile_not p cs
    rw [Option.mem_def.1 hd] at h
    exact h
  unfold Token.cut? at h
  split at h
  · next hc =>
    cases h
    exact ⟨_, hsplit isLetter, rfl, .word (List.cons_ne_nil _ _) (hrun hc), hend isLetter⟩
  split at h
  · next hc =>
    cases h
    exact ⟨_, hsplit isNumeric, rfl, .digits (List.cons_ne_nil _ _) (hrun hc), hend isNumeric⟩
  split at h
  · next hc =>
    cases h
    exact ⟨_, hsplit isSpacing, rfl, .space (List.cons_ne_nil _ _) (hrun hc), hend isSpacing⟩
  · obtain ⟨mark, hmark, rfl⟩ := Option.map_eq_some_iff.1 h
    refine ⟨[c], rfl, rfl, .mark hmark, ?_⟩
    intro d _
    unfold ofMark? at hmark
    split at hmark <;> cases hmark <;> rfl

/-! ## §3 Lexing and cutting -/

theorem IsCut.boundary {p : Piece} {pieces : List Piece} (h : IsCut (p :: pieces)) :
    Boundary p.run (pieces.flatMap Piece.run) := by
  cases pieces with
  | nil => exact fun _ _ _ hd => nomatch hd
  | cons q pieces =>
    have hp := h.writes p List.mem_cons_self
    have hq := h.writes q (List.mem_cons_of_mem p List.mem_cons_self)
    rw [List.flatMap_cons, hp.boundary_iff hq]
    exact (List.isChain_cons_cons.1 h.apart).1

/-- A piece that does not go on with what follows can be put before it. -/
theorem IsCut.cons {p : Piece} {pieces : List Piece} (h : IsCut pieces)
    (hp : p.token.Writes p.run)
    (hend : ∀ d ∈ (pieces.flatMap Piece.run).head?, p.token.goesOn d = false) :
    IsCut (p :: pieces) := by
  refine ⟨List.forall_mem_cons.2 ⟨hp, h.writes⟩, ?_⟩
  cases pieces with
  | nil => exact List.isChain_singleton p
  | cons q pieces =>
    have hq := h.writes q List.mem_cons_self
    obtain ⟨d, ds, hrun⟩ := List.exists_cons_of_ne_nil hq.ne_nil
    refine List.isChain_cons_cons.2 ⟨?_, h.apart⟩
    rw [← hq.goesOn_eq (hrun ▸ List.mem_cons_self)]
    exact hend d (by rw [List.flatMap_cons, hrun]; rfl)

theorem IsCut.tail {p : Piece} {pieces : List Piece} (h : IsCut (p :: pieces)) : IsCut pieces :=
  ⟨fun q hq => h.writes q (List.mem_cons_of_mem p hq), h.apart.tail⟩

/-- Two cut texts with a boundary between them are one cut text. -/
theorem IsCut.append {ps qs : List Piece} (hp : IsCut ps) (hq : IsCut qs)
    (hb : Boundary (ps.flatMap Piece.run) (qs.flatMap Piece.run)) : IsCut (ps ++ qs) := by
  refine ⟨List.forall_mem_append.2 ⟨hp.writes, hq.writes⟩, hp.apart.append hq.apart ?_⟩
  intro p hlast q hfirst
  obtain ⟨init, rfl⟩ := List.getLast?_eq_some_iff.1 hlast
  obtain ⟨rest, rfl⟩ := List.head?_eq_some_iff.1 hfirst
  have hwp := hp.writes p (by simp)
  have hwq := hq.writes q List.mem_cons_self
  rw [← hwp.boundary_iff hwq (rest.flatMap Piece.run)]
  intro c hc
  refine hb c ?_
  rw [List.flatMap_append, List.flatMap_singleton, List.getLast?_append_of_ne_nil _ hwp.ne_nil]
  exact hc

/-- The pieces of a cut text are its tokens. -/
theorem IsCut.lexFrom_eq {pieces : List Piece} (h : IsCut pieces) (column : Nat) :
    lexFrom column (pieces.flatMap Piece.run) = .ok (layOut column pieces) := by
  induction pieces generalizing column with
  | nil => rw [List.flatMap_nil, lexFrom, layOut]
  | cons p pieces ih =>
    have hwrites := h.writes p List.mem_cons_self
    obtain ⟨c, cs, hrun⟩ := List.exists_cons_of_ne_nil hwrites.ne_nil
    have hboundary := h.boundary
    have hwidth : Text.byteLength p.run = cs.length + 1 := by
      rw [byteLength_of_alphabet hwrites.mem_alphabet, hrun, List.length_cons]
    rw [hrun] at hwrites hboundary
    have hcut := cut?_append hwrites.cut? hboundary
    rw [List.flatMap_cons, hrun, List.cons_append, lexFrom_of_cut hcut, List.nil_append,
      ih h.tail, layOut, hwidth]
    rfl

theorem exists_isCut_of_lexFrom {column : Nat} {cs : List Char} {placed : List Placed}
    (h : lexFrom column cs = .ok placed) :
    ∃ pieces, IsCut pieces ∧ pieces.flatMap Piece.run = cs ∧ layOut column pieces = placed := by
  fun_induction lexFrom column cs generalizing placed with
  | case1 column =>
    cases h
    exact ⟨[], ⟨by simp, .nil⟩, rfl, rfl⟩
  | case2 column c cs hcut => cases h
  | case3 column c cs t hcut f hf ih => cases h
  | case4 column c cs t hcut rest hrest ih =>
    cases h
    obtain ⟨run, hsplit, hwidth, hwrites, hend⟩ := writes_of_cut? hcut
    obtain ⟨pieces, hpieces, htext, hplaced⟩ := ih hrest
    refine ⟨⟨t.token, run⟩ :: pieces, hpieces.cons hwrites (by rwa [htext]), ?_, ?_⟩
    · rw [List.flatMap_cons, htext, hsplit]
    · rw [layOut, byteLength_of_alphabet hwrites.mem_alphabet, hwidth, hplaced]

/-- A text has some tokens if it can be cut into pieces that they stand for. -/
theorem lex_eq_ok_iff {source : String} {placed : List Placed} :
    lex source = .ok placed ↔
      ∃ pieces, IsCut pieces ∧ pieces.flatMap Piece.run = source.toList ∧
        layOut 0 pieces = placed := by
  constructor
  · exact exists_isCut_of_lexFrom
  · rintro ⟨pieces, h, htext, rfl⟩
    rw [lex, ← htext, h.lexFrom_eq]

/-! ## §4 Faults -/

/-- No token begins with a character outside of the alphabet. -/
theorem cut?_eq_none_iff {c : Char} {cs : List Char} : cut? c cs = none ↔ c ∉ alphabet := by
  rw [mem_alphabet_iff]
  unfold cut?
  split
  · next h => simp [h]
  split
  · next h => simp [h]
  split
  · next h => simp [h]
  · next hletter hnumeric hspacing => simp [hletter, hnumeric, hspacing]

theorem forall_mem_alphabet_of_isCut {pieces : List Piece} (h : IsCut pieces) :
    ∀ c ∈ pieces.flatMap Piece.run, c ∈ alphabet := by
  intro c hc
  obtain ⟨p, hp, hc⟩ := List.mem_flatMap.1 hc
  exact (h.writes p hp).mem_alphabet c hc

/-- The fault of a text is its first character outside of the alphabet. -/
theorem exists_foreign_of_lexFrom {column : Nat} {cs : List Char} {f : TextFault}
    (h : lexFrom column cs = .error f) :
    ∃ before c after, cs = before ++ c :: after ∧ (∀ b ∈ before, b ∈ alphabet) ∧ c ∉ alphabet ∧
      f = ⟨.invalidCharacter (String.singleton c), column + Text.byteLength before⟩ := by
  fun_induction lexFrom column cs generalizing f with
  | case1 column => cases h
  | case2 column c cs hcut =>
    cases h
    exact ⟨[], c, cs, rfl, by simp, cut?_eq_none_iff.1 hcut, rfl⟩
  | case3 column c cs t hcut g hg ih =>
    cases h
    obtain ⟨run, hsplit, hwidth, hwrites, -⟩ := writes_of_cut? hcut
    obtain ⟨before, d, after, hrest, hbefore, hd, rfl⟩ := ih hg
    refine ⟨run ++ before, d, after, ?_, ?_, hd, ?_⟩
    · rw [hsplit, hrest, List.append_assoc]
    · exact List.forall_mem_append.2 ⟨hwrites.mem_alphabet, hbefore⟩
    · rw [Text.byteLength_append, byteLength_of_alphabet hwrites.mem_alphabet, hwidth,
        Nat.add_assoc]
  | case4 column c cs t hcut rest hrest ih => cases h

theorem foreign_unique {before before' after after' : List Char} {c c' : Char}
    (hbefore : ∀ b ∈ before, b ∈ alphabet) (hc : c ∉ alphabet)
    (hbefore' : ∀ b ∈ before', b ∈ alphabet) (hc' : c' ∉ alphabet)
    (h : before ++ c :: after = before' ++ c' :: after') : before = before' ∧ c = c' := by
  have htake {bs : List Char} {d : Char} (hbs : ∀ b ∈ bs, b ∈ alphabet) (hd : d ∉ alphabet)
      (as : List Char) : (bs ++ d :: as).takeWhile (· ∈ alphabet) = bs := by
    rw [List.takeWhile_append_of_pos (by simpa using hbs),
      List.takeWhile_cons_of_neg (by simpa using hd), List.append_nil]
  obtain rfl : before = before' := by
    rw [← htake hbefore hc after, h, htake hbefore' hc' after']
  exact ⟨rfl, (List.cons.inj (List.append_cancel_left h)).1⟩

/-- A text can be cut into tokens if all its characters are in the alphabet. -/
theorem exists_lex_iff {source : String} :
    (∃ placed, lex source = .ok placed) ↔ ∀ c ∈ source.toList, c ∈ alphabet := by
  constructor
  · rintro ⟨placed, h⟩
    obtain ⟨pieces, hpieces, htext, -⟩ := lex_eq_ok_iff.1 h
    rw [← htext]
    exact forall_mem_alphabet_of_isCut hpieces
  · intro h
    cases hlex : lex source with
    | ok placed => exact ⟨placed, rfl⟩
    | error f =>
      obtain ⟨before, c, after, hsource, -, hc, -⟩ := exists_foreign_of_lexFrom hlex
      exact absurd (h c (by rw [hsource]; simp)) hc

theorem exists_isCut {cs : List Char} (h : ∀ c ∈ cs, c ∈ alphabet) :
    ∃ pieces, IsCut pieces ∧ pieces.flatMap Piece.run = cs := by
  rw [← String.toList_ofList (l := cs)] at h
  obtain ⟨placed, hlex⟩ := exists_lex_iff.2 h
  obtain ⟨pieces, hcut, htext, -⟩ := lex_eq_ok_iff.1 hlex
  exact ⟨pieces, hcut, htext.trans String.toList_ofList⟩

theorem lex_eq_error_iff {source : String} {f : TextFault} :
    lex source = .error f ↔
      ∃ before c after, source.toList = before ++ c :: after ∧ (∀ b ∈ before, b ∈ alphabet) ∧
        c ∉ alphabet ∧ f = ⟨.invalidCharacter (String.singleton c), Text.byteLength before⟩ := by
  constructor
  · intro h
    simpa using exists_foreign_of_lexFrom h
  · rintro ⟨before, c, after, hsource, hbefore, hc, rfl⟩
    cases hlex : lex source with
    | ok placed =>
      have hall := exists_lex_iff.1 ⟨placed, hlex⟩
      exact absurd (hall c (by rw [hsource]; simp)) hc
    | error g =>
      obtain ⟨before', c', after', hsource', hbefore', hc', rfl⟩ := exists_foreign_of_lexFrom hlex
      obtain ⟨rfl, rfl⟩ := foreign_unique hbefore hc hbefore' hc' (hsource.symm.trans hsource')
      rw [Nat.zero_add]

end Token

/-- Lexing is exact. A text has tokens exactly if all its characters are in the alphabet. Its tokens
are then those of the one way to cut it into pieces that are tokens and do not run into each other,
each at the number of bytes before it. Any other text is refused for its first character outside of
the alphabet, at the number of bytes before that one. -/
theorem lex_exact (source : String) :
    ((∃ placed, Token.lex source = .ok placed) ↔ ∀ c ∈ source.toList, c ∈ Token.alphabet) ∧
    (∀ placed, Token.lex source = .ok placed ↔
      ∃ pieces, Token.IsCut pieces ∧ pieces.flatMap Token.Piece.run = source.toList ∧
        Token.layOut 0 pieces = placed) ∧
    (∀ f, Token.lex source = .error f ↔
      ∃ before c after, source.toList = before ++ c :: after ∧
        (∀ b ∈ before, b ∈ Token.alphabet) ∧ c ∉ Token.alphabet ∧
        f = ⟨.invalidCharacter (String.singleton c), Text.byteLength before⟩) ∧
    (∀ f, Token.lex source = .error f → (evaluate source).result = .error (.text f)) :=
  ⟨Token.exists_lex_iff, fun _ => Token.lex_eq_ok_iff, fun _ => Token.lex_eq_error_iff,
    fun _ => result_evaluate_of_lex_eq_error⟩

/-- A tab is spacing, a point belongs to the digits, and an accent is refused before the quotient
and the bracket after it are. -/
theorem lex_exact_accent :
    Token.lex "ref\t[.5" =
      .ok [⟨.word "ref", 0⟩, ⟨.space, 3⟩, ⟨.literalStart, 4⟩, ⟨.digits ".5", 5⟩] ∧
    (evaluate "[1 é] / )").result = .error (.text ⟨.invalidCharacter "é", 3⟩) := by
  constructor
  · refine ((lex_exact "ref\t[.5").2.1 _).2 ⟨[⟨.word "ref", "ref".toList⟩, ⟨.space, ['\t']⟩,
      ⟨.literalStart, ['[']⟩, ⟨.digits ".5", ".5".toList⟩], ⟨?_, by decide⟩, rfl, rfl⟩
    simp only [List.forall_mem_cons]
    exact ⟨.word (by decide) (List.all_eq_true.1 rfl), .space (by decide) (List.all_eq_true.1 rfl),
      .mark rfl, .digits (by decide) (List.all_eq_true.1 rfl), by simp⟩
  · refine (lex_exact "[1 é] / )").2.2.2 _ (((lex_exact "[1 é] / )").2.2.1 _).2 ?_)
    have hbefore : "[1 ".toList ⊆ Token.alphabet := by decide
    exact ⟨"[1 ".toList, 'é', "] / )".toList, rfl, fun b hb => hbefore hb, by decide, rfl⟩

end MatrixCalc
