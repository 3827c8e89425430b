import Mathlib.Data.List.DropRight
import Mathlib.Logic.Relation
import MatrixCalc.Proofs.Text.Places

/-!
# Flexible spacing

How long a run of spacing is and what it consists of makes no difference to a text, and spacing may
be put wherever it parts no number from the next one: anywhere between two tokens outside of
literals, and around the brackets and the row ends of a literal. Texts that differ in that have the
same value, or the same fault up to its column (`spacing_is_flexible`).

An edit keeps the tokens of the text or adds one token of spacing to them. Up to the place of the
edit both texts are read alike. There the added token does nothing, as no literal is open or no
number is at hand or what comes next ends one anyway (`evaluateRest_space`). From there on the
tokens are the same at other columns, which shows only in the columns of faults
(`alike_evaluateRest`).

§1 edits · §2 the rest of a text · §3 one more token · §4 edited texts
-/

namespace MatrixCalc

/-! ## §1 Edits -/

namespace Text

/-- A run of spacing of any kind and length. -/
def IsBlank (run : List Char) : Prop := run ≠ [] ∧ ∀ c ∈ run, Token.isSpacing c = true

theorem IsBlank.extend {left run right : List Char} (h : IsBlank run)
    (hleft : ∀ c ∈ left, Token.isSpacing c = true)
    (hright : ∀ c ∈ right, Token.isSpacing c = true) : IsBlank (left ++ run ++ right) := by
  refine ⟨by simp [h.1], ?_⟩
  simp only [List.forall_mem_append]
  exact ⟨⟨hleft, h.2⟩, hright⟩

/-- Where spacing may be put between a text and what follows it. -/
inductive MayBreak : List Char → List Char → Prop where
  /-- Outside of literals, between two tokens or at an end of the text. -/
  | outside {before after : List Char} (h : endsInLiteral before = false)
      (hb : Token.Boundary before after) : MayBreak before after
  /-- After the start of a literal or the end of a row. -/
  | afterMark (before after : List Char) {c : Char} (hc : c = '[' ∨ c = ';') :
      MayBreak (before ++ [c]) after
  /-- Before the end of a row or of a literal. -/
  | beforeMark (before after : List Char) {c : Char} (hc : c = ';' ∨ c = ']') :
      MayBreak before (c :: after)

/-- One edit of the spacing of a text. -/
inductive Respaced : List Char → List Char → Prop where
  /-- Spacing gives way to other spacing. -/
  | replace (before after : List Char) {old new : List Char} (hold : IsBlank old)
      (hnew : IsBlank new) : Respaced (before ++ old ++ after) (before ++ new ++ after)
  /-- Spacing is put where it may be put. -/
  | insert {before after : List Char} (h : MayBreak before after) {blank : List Char}
      (hblank : IsBlank blank) : Respaced (before ++ after) (before ++ blank ++ after)

/-- Between the tokens that meet where spacing may be put, there is a boundary. -/
theorem MayBreak.boundary {before after : List Char} (h : MayBreak before after) :
    Token.Boundary before after := by
  cases h with
  | outside h hb => exact hb
  | afterMark before after hc =>
    refine Token.boundary_of_last ?_ before after
    rcases hc with rfl | rfl <;> rfl
  | beforeMark before after hc =>
    refine Token.boundary_of_first ?_ before after
    rcases hc with rfl | rfl <;> rfl

theorem Respaced.mem_alphabet {cs ds : List Char} (h : Respaced cs ds)
    (hcs : ∀ c ∈ cs, c ∈ Token.alphabet) : ∀ c ∈ ds, c ∈ Token.alphabet := by
  have hspacing {run : List Char} (hrun : IsBlank run) : ∀ c ∈ run, c ∈ Token.alphabet :=
    fun c hc => Token.mem_alphabet_iff.2 (.inr (.inr (.inl (hrun.2 c hc))))
  cases h with
  | replace before after hold hnew =>
    simp only [List.forall_mem_append] at hcs ⊢
    exact ⟨⟨hcs.1.1, hspacing hnew⟩, hcs.2⟩
  | insert h hblank =>
    simp only [List.forall_mem_append] at hcs ⊢
    exact ⟨⟨hcs.1, hspacing hblank⟩, hcs.2⟩

end Text

/-! ## §2 The rest of a text -/

/-- What is left to do in the middle of an evaluation: some tokens, and the end of the text. -/
def evaluateRest (ts : List Placed) (column : Nat) (r : Reading) (s : Stacks Float) :
    Except Fault (DenseMatrix Float) :=
  (evaluateTokens ts r s).result.bind fun x =>
    ((x.1.finish column).mapError Fault.text).bind fun _ => x.2.finish.result

theorem evaluateRest_append (ts us : List Placed) (column : Nat) (r : Reading) (s : Stacks Float) :
    evaluateRest (ts ++ us) column r s =
      (evaluateTokens ts r s).result.bind fun x => evaluateRest us column x.1 x.2 := by
  unfold evaluateRest
  rw [evaluateTokens_append]
  cases (evaluateTokens ts r s).result <;> rfl

theorem evaluateRest_cons (t : Placed) (ts : List Placed) (column : Nat) (r : Reading)
    (s : Stacks Float) :
    evaluateRest (t :: ts) column r s =
      (r.step t.token t.column).result.bind fun x =>
        match x.2 with
        | none => evaluateRest ts column x.1 s
        | some item =>
          (s.feed item).toLogged.result.bind fun fed => evaluateRest ts column x.1 fed := by
  unfold evaluateRest
  rw [evaluateTokens_cons, Logged.result_bind]
  cases (r.step t.token t.column).result with
  | error f => rfl
  | ok x =>
    obtain ⟨next, item?⟩ := x
    cases item? with
    | none => rfl
    | some item =>
      simp only [Except.bind, Logged.result_bind]
      cases (s.feed item).toLogged.result <;> rfl

/-- An evaluation of the same tokens at other columns goes on alike. -/
theorem alike_evaluateRest {ts us : List Placed}
    (htokens : ts.map Placed.token = us.map Placed.token) (column column' : Nat)
    {r r' : Reading} (h : r.SameText r') (s : Stacks Float) :
    Alike Eq (evaluateRest ts column r s) (evaluateRest us column' r' s) := by
  induction ts generalizing us r r' s with
  | nil =>
    obtain rfl : us = [] := by simpa using htokens
    cases h with
    | outside => exact alike_refl _
    | inside h => exact .error rfl
  | cons t ts ih =>
    cases us with
    | nil => simp at htokens
    | cons u us =>
      simp only [List.map_cons, List.cons.injEq] at htokens
      obtain ⟨ht, hts⟩ := htokens
      rw [evaluateRest_cons, evaluateRest_cons, ht]
      refine (Reading.alike_step u.token t.column u.column h).bind fun x y hxy => ?_
      obtain ⟨next, item?⟩ := x
      obtain ⟨next', item?'⟩ := y
      obtain ⟨hnext, rfl⟩ := hxy
      cases item? with
      | none => exact ih hts hnext s
      | some item =>
        refine (alike_refl (s.feed item).toLogged.result).bind fun fed fed' hfed => ?_
        subst hfed
        exact ih hts hnext fed

/-! ## §3 One more token -/

def Token.isOfNumber : Token → Bool
  | digits _ | minus => true
  | _ => false

namespace Draft

variable {d : Draft}

/-- The number at hand is ended whether spacing came after it or not. -/
theorem flush_addSpace (d : Draft) : d.addSpace.flush = d.flush := rfl

theorem addText_addSpace (h : d.piece = "") (text : String) (column : Nat) :
    d.addSpace.addText text column = d.addText text column := by
  obtain ⟨piece, pieceColumn, spaced, values, rows, cols, rowLength?⟩ := d
  obtain rfl : piece = "" := h
  cases spaced <;> rfl

theorem endRow_addSpace (d : Draft) (column : Nat) :
    d.addSpace.endRow column = d.endRow column := by
  unfold endRow settle
  rw [flush_addSpace]

theorem close_addSpace (d : Draft) (column : Nat) : d.addSpace.close column = d.close column := by
  unfold close settle
  rw [flush_addSpace]

/-- After the start of a literal or the end of a row there is no number at hand. -/
theorem Follows.piece_eq {front blank before : List Char} {c : Char} (h : d.Follows front blank)
    (hseen : before ++ [c] = front ++ d.piece.toList ++ blank) (hc : c = '[' ∨ c = ';') :
    d.piece = "" := by
  have hlast := congrArg List.getLast? hseen
  rw [List.getLast?_concat] at hlast
  -- the last character is neither spacing nor part of a number
  by_cases hblank : blank = []
  · by_contra hpiece
    have hne : d.piece.toList ≠ [] := by simpa using hpiece
    rw [hblank, List.append_nil, List.getLast?_append_of_ne_nil _ hne] at hlast
    have hnumeral := h.isClean c (List.mem_of_getLast? hlast.symm)
    rcases hc with rfl | rfl <;> cases hnumeral
  · rw [List.getLast?_append_of_ne_nil _ hblank] at hlast
    have hspacing := h.isSpacing c (List.mem_of_getLast? hlast.symm)
    rcases hc with rfl | rfl <;> cases hspacing

end Draft

namespace Reading

/-- Spacing makes no difference to a token that no number can go on with, nor to a number before
which there is none. -/
theorem stepInside_addSpace {d : Draft} {t : Token} (h : t.isOfNumber = true → d.piece = "")
    (column : Nat) : stepInside d.addSpace t column = stepInside d t column := by
  cases t with
  | digits text => simp only [stepInside, Draft.addText_addSpace (h rfl)]
  | minus => simp only [stepInside, Draft.addText_addSpace (h rfl)]
  | rowEnd => simp only [stepInside, Draft.endRow_addSpace]
  | literalEnd => simp only [stepInside, Draft.close_addSpace]
  | word text => rfl
  | space => rfl
  | plus => rfl
  | star => rfl
  | opening => rfl
  | closing => rfl
  | literalStart => rfl

/-- Whether spacing before a token would make no difference. -/
def Ignores (t : Token) : Reading → Prop
  | outside => True
  | inside d => t.isOfNumber = true → d.piece = ""

end Reading

/-- Spacing that makes no difference to the next token makes none at all. If no token is left, none
is needed that ends a number: a literal that is open is a fault anyway. -/
theorem evaluateRest_space {ts : List Placed} {r : Reading}
    (h : ∀ t ∈ ts.head?, r.Ignores t.token) (place column : Nat) (s : Stacks Float) :
    evaluateRest (⟨.space, place⟩ :: ts) column r s = evaluateRest ts column r s := by
  cases r with
  | outside => rfl
  | inside d =>
    show evaluateRest ts column (.inside d.addSpace) s = _
    cases ts with
    | nil => rfl
    | cons t ts =>
      rw [evaluateRest_cons, evaluateRest_cons]
      show (Reading.stepInside _ _ _).result.bind _ = (Reading.stepInside _ _ _).result.bind _
      rw [Reading.stepInside_addSpace (h t rfl)]

/-! ## §4 Edited texts -/

namespace Token

variable {ps qs : List Piece}

/-- Spacing between two texts that do not go on with it is a piece of its own. -/
theorem IsCut.insert (hp : IsCut ps) (hq : IsCut qs) {run : List Char} (hrun : Text.IsBlank run)
    (hbefore : ∀ c ∈ (ps.flatMap Piece.run).getLast?, isSpacing c = false)
    (hafter : ∀ c ∈ (qs.flatMap Piece.run).head?, isSpacing c = false) :
    IsCut (ps ++ ⟨space, run⟩ :: qs) := by
  refine hp.append (hq.cons (.space hrun.1 hrun.2) hafter) ?_
  intro c hc d hd
  obtain ⟨e, rest, rfl⟩ := List.exists_cons_of_ne_nil hrun.1
  obtain rfl : e = d := by simpa using hd
  have hspacing := hrun.2 e List.mem_cons_self
  simp [sameRun, classes_of_isSpacing hspacing, hbefore c hc]

/-- The token that ends a row or a literal is no text of a number. -/
theorem Writes.isOfNumber_of_mark {t : Token} {c : Char} {cs : List Char} (h : t.Writes (c :: cs))
    (hc : c = ';' ∨ c = ']') : t.isOfNumber = false := by
  generalize hrun : c :: cs = run at h
  cases h with
  | word hne h => rfl
  | digits hne h =>
    have hnumeric := h c (hrun ▸ List.mem_cons_self)
    rcases hc with rfl | rfl <;> cases hnumeric
  | space hne h => rfl
  | mark h =>
    cases hrun
    rcases hc with rfl | rfl <;> cases h <;> rfl

end Token

theorem result_evaluate_of_isCut {source : String} {pieces : List Token.Piece}
    (h : Token.IsCut pieces) (htext : pieces.flatMap Token.Piece.run = source.toList) :
    (evaluate source).result =
      evaluateRest (Token.layOut 0 pieces) source.utf8ByteSize .outside .empty :=
  result_evaluate_of_lex_eq_ok (Token.lex_eq_ok_iff.2 ⟨pieces, h, htext, rfl⟩)

section Edited

variable {source edited : String} {before after : List Char}

/-- Texts with the same tokens have the same value, or the same fault up to its column. -/
theorem alike_of_tokens {ps qs : List Token.Piece} (hp : Token.IsCut ps) (hq : Token.IsCut qs)
    (hsource : ps.flatMap Token.Piece.run = source.toList)
    (hedited : qs.flatMap Token.Piece.run = edited.toList)
    (h : ps.map Token.Piece.token = qs.map Token.Piece.token) :
    Alike Eq (evaluate source).result (evaluate edited).result := by
  rw [result_evaluate_of_isCut hp hsource, result_evaluate_of_isCut hq hedited]
  refine alike_evaluateRest ?_ _ _ .outside _
  rw [Token.map_token_layOut, Token.map_token_layOut, h]

/-- Spacing gives way to other spacing where the run of it has its ends. -/
theorem alike_of_replace (hbefore : ∀ c ∈ before, c ∈ Token.alphabet)
    (hafter : ∀ c ∈ after, c ∈ Token.alphabet)
    (hlast : ∀ c ∈ before.getLast?, Token.isSpacing c = false)
    (hfirst : ∀ c ∈ after.head?, Token.isSpacing c = false) {old new : List Char}
    (hold : Text.IsBlank old) (hnew : Text.IsBlank new)
    (hsource : source.toList = before ++ old ++ after)
    (hedited : edited.toList = before ++ new ++ after) :
    Alike Eq (evaluate source).result (evaluate edited).result := by
  obtain ⟨ps, hps, rfl⟩ := Token.exists_isCut hbefore
  obtain ⟨qs, hqs, rfl⟩ := Token.exists_isCut hafter
  refine alike_of_tokens (hps.insert hqs hold hlast hfirst) (hps.insert hqs hnew hlast hfirst)
    ?_ ?_ (by simp)
  · rw [hsource, List.flatMap_append, List.flatMap_cons, List.append_assoc]
  · rw [hedited, List.flatMap_append, List.flatMap_cons, List.append_assoc]

/-- Reading ignores spacing where it may be put. -/
theorem Text.MayBreak.ignores (h : Text.MayBreak before after) {r : Reading}
    (hr : r.Follows before) {qs : List Token.Piece} (hq : Token.IsCut qs)
    (hafter : qs.flatMap Token.Piece.run = after) (column : Nat) :
    ∀ t ∈ (Token.layOut column qs).head?, r.Ignores t.token := by
  intro t ht
  cases r with
  | outside => trivial
  | inside d =>
    obtain ⟨front, blank, hseen, hfollows⟩ := hr
    intro hnumber
    cases h with
    | outside h hb =>
      rw [hseen, hfollows.endsInLiteral] at h
      cases h
    | afterMark before after hc => exact hfollows.piece_eq hseen hc
    | beforeMark before after hc =>
      cases qs with
      | nil => cases ht
      | cons q qs =>
        cases ht
        have hq := hq.writes q List.mem_cons_self
        obtain ⟨c, cs, hrun⟩ := List.exists_cons_of_ne_nil hq.ne_nil
        rw [List.flatMap_cons, hrun] at hafter
        rw [hrun, (List.cons.inj hafter).1] at hq
        rw [hq.isOfNumber_of_mark hc] at hnumber
        cases hnumber

/-- Spacing is put where there was none. -/
theorem alike_of_insert (hbefore : ∀ c ∈ before, c ∈ Token.alphabet)
    (hafter : ∀ c ∈ after, c ∈ Token.alphabet)
    (hlast : ∀ c ∈ before.getLast?, Token.isSpacing c = false)
    (hfirst : ∀ c ∈ after.head?, Token.isSpacing c = false) (h : Text.MayBreak before after)
    {blank : List Char} (hblank : Text.IsBlank blank)
    (hsource : source.toList = before ++ after)
    (hedited : edited.toList = before ++ blank ++ after) :
    Alike Eq (evaluate source).result (evaluate edited).result := by
  obtain ⟨ps, hps, rfl⟩ := Token.exists_isCut hbefore
  obtain ⟨qs, hqs, rfl⟩ := Token.exists_isCut hafter
  rw [result_evaluate_of_isCut (hps.append hqs h.boundary) (by rw [hsource, List.flatMap_append]),
    result_evaluate_of_isCut (hps.insert hqs hblank hlast hfirst)
      (by rw [hedited, List.flatMap_append, List.flatMap_cons, List.append_assoc])]
  rw [Token.layOut_append, Token.layOut_append, evaluateRest_append, evaluateRest_append]
  cases hrun : (evaluateTokens (Token.layOut 0 ps) .outside .empty).result with
  | error f => exact alike_refl _
  | ok x =>
    obtain ⟨r, s⟩ := x
    have houtside : Reading.outside.Follows [] := rfl
    have hfollows : r.Follows (ps.flatMap Token.Piece.run) := houtside.of_evaluateTokens hps hrun
    show Alike Eq (evaluateRest _ _ r s) (evaluateRest _ _ r s)
    rw [Token.layOut, evaluateRest_space (h.ignores hfollows hqs rfl _)]
    refine alike_evaluateRest ?_ _ _ (Reading.SameText.refl r) s
    rw [Token.map_token_layOut, Token.map_token_layOut]

/-- The spacing at the end of a text and what is before it. -/
theorem Text.exists_trimEnd (cs : List Char) :
    ∃ xs blank, cs = xs ++ blank ∧ (∀ c ∈ blank, Token.isSpacing c = true) ∧
      ∀ c ∈ xs.getLast?, Token.isSpacing c = false := by
  refine ⟨cs.rdropWhile Token.isSpacing, cs.rtakeWhile Token.isSpacing,
    List.rdropWhile_append_rtakeWhile.symm, fun c hc => List.mem_rtakeWhile_imp hc, fun c hc => ?_⟩
  obtain ⟨hne, rfl⟩ := List.mem_getLast?_eq_getLast hc
  exact Bool.eq_false_iff.2 (List.rdropWhile_last_not _ _ hne)

/-- The spacing at the start of a text and what is after it. -/
theorem Text.exists_trimStart (cs : List Char) :
    ∃ blank xs, cs = blank ++ xs ∧ (∀ c ∈ blank, Token.isSpacing c = true) ∧
      ∀ c ∈ xs.head?, Token.isSpacing c = false := by
  refine ⟨cs.takeWhile Token.isSpacing, cs.dropWhile Token.isSpacing,
    List.takeWhile_append_dropWhile.symm, List.all_eq_true.1 List.all_takeWhile, fun c hc => ?_⟩
  have h := List.head?_dropWhile_not Token.isSpacing cs
  rw [Option.mem_def.1 hc] at h
  exact h

/-- One edit leaves the value, or the fault up to its column. -/
theorem alike_of_respaced (hsource : ∀ c ∈ source.toList, c ∈ Token.alphabet)
    (h : Text.Respaced source.toList edited.toList) :
    Alike Eq (evaluate source).result (evaluate edited).result := by
  generalize hcs : source.toList = cs at h hsource
  generalize hds : edited.toList = ds at h
  cases h with
  | replace before after hold hnew =>
    -- the run that the replaced spacing is in begins and ends further out
    obtain ⟨xs, left, rfl, hleft, hlast⟩ := Text.exists_trimEnd before
    obtain ⟨right, ys, rfl, hright, hfirst⟩ := Text.exists_trimStart after
    simp only [List.forall_mem_append] at hsource
    exact alike_of_replace hsource.1.1.1 hsource.2.2 hlast hfirst (hold.extend hleft hright)
      (hnew.extend hleft hright) (by rw [hcs]; simp) (by rw [hds]; simp)
  | @insert before after h blank hblank =>
    obtain ⟨xs, left, rfl, hleft, hlast⟩ := Text.exists_trimEnd before
    obtain ⟨right, ys, rfl, hright, hfirst⟩ := Text.exists_trimStart after
    simp only [List.forall_mem_append] at hsource
    by_cases hspacing : left ++ right = []
    · obtain ⟨rfl, rfl⟩ := List.append_eq_nil_iff.1 hspacing
      rw [List.append_nil] at h hds
      rw [List.append_nil, List.nil_append] at hcs
      exact alike_of_insert hsource.1.1 hsource.2.2 hlast hfirst h hblank hcs hds
    · -- next to spacing, more of it makes a longer run
      have hrun : Text.IsBlank (left ++ right) :=
        ⟨hspacing, List.forall_mem_append.2 ⟨hleft, hright⟩⟩
      exact alike_of_replace hsource.1.1 hsource.2.2 hlast hfirst hrun (hblank.extend hleft hright)
        (by rw [hcs]; simp) (by rw [hds]; simp)

end Edited

/-- Spacing is flexible. Any number of edits of the spacing of a text that has tokens lead to a text
that has tokens, and both have the same value or the same fault up to its column. -/
theorem spacing_is_flexible {source edited : String} {placed : List Placed}
    (hlex : Token.lex source = .ok placed)
    (h : Relation.ReflTransGen Text.Respaced source.toList edited.toList) :
    (∃ placed', Token.lex edited = .ok placed') ∧
      Alike Eq (evaluate source).result (evaluate edited).result := by
  rw [Token.exists_lex_iff]
  generalize hds : edited.toList = ds at h
  induction h generalizing edited with
  | refl =>
    obtain rfl : edited = source := String.toList_inj.1 hds
    exact ⟨Token.exists_lex_iff.1 ⟨placed, hlex⟩, alike_refl _⟩
  | @tail cs ds _ hedit ih =>
    obtain ⟨hmem, hbetween⟩ := ih (String.toList_ofList (l := cs))
    refine ⟨hds ▸ hedit.mem_alphabet hmem, hbetween.trans (alike_of_respaced ?_ ?_)⟩
    · rwa [String.toList_ofList]
    · rwa [String.toList_ofList, hds]

/-- A tab within a literal, a new line after the end of a row and a blank before a star: the number
outside of the literal is still what is wrong, three columns further on. -/
theorem spacing_is_flexible_number :
    Alike Eq (evaluate "[1 -2;3 4]*2").result (evaluate "[1\t -2;\n3 4] *2").result ∧
    (evaluate "[1 -2;3 4]*2").result = .error (.text ⟨.numberOutside "2", 11⟩) ∧
    (evaluate "[1\t -2;\n3 4] *2").result = .error (.text ⟨.numberOutside "2", 14⟩) := by
  have hmem : "[1 -2;3 4]*2".toList ⊆ Token.alphabet := by decide
  obtain ⟨placed, hlex⟩ := Token.exists_lex_iff.2 fun c hc => hmem hc
  have hblank : Text.IsBlank " ".toList := ⟨by decide, List.all_eq_true.1 rfl⟩
  have htab : Text.Respaced "[1 -2;3 4]*2".toList "[1\t -2;3 4]*2".toList :=
    .replace "[1".toList "-2;3 4]*2".toList hblank
      (show Text.IsBlank "\t ".toList from ⟨by decide, List.all_eq_true.1 rfl⟩)
  have hline : Text.Respaced "[1\t -2;3 4]*2".toList "[1\t -2;\n3 4]*2".toList :=
    .insert (.afterMark "[1\t -2".toList "3 4]*2".toList (.inr rfl))
      (show Text.IsBlank "\n".toList from ⟨by decide, List.all_eq_true.1 rfl⟩)
  have hstar : Text.Respaced "[1\t -2;\n3 4]*2".toList "[1\t -2;\n3 4] *2".toList :=
    .insert (.outside (show Text.endsInLiteral "[1\t -2;\n3 4]".toList = false from rfl)
      (show Token.Boundary _ "*2".toList from Token.boundary_of_first rfl _ ['2'])) hblank
  have hedits := ((Relation.ReflTransGen.refl.tail htab).tail hline).tail hstar
  exact ⟨(spacing_is_flexible hlex hedits).2, by decide +kernel, by decide +kernel⟩

/-- Within a row of a literal spacing parts the numbers. -/
example : (evaluateToText .bracketed "[1 -2]").result.toOption = some "[ 1.0 -2.0 ]" ∧
    (evaluateToText .bracketed "[1-2]").result.toOption = none := by decide +kernel

end MatrixCalc
