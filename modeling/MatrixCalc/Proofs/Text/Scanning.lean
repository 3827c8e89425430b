import MatrixCalc.Proofs.Text.Expressions

/-!
# What reading accepts

The converse of `Token.Spells.items_eq`: tokens that are read without fault write down the items
that they are read as. So reading accepts the grammar of operators and literals and nothing else
(`items_iff_spells`), although it splits a row into numerals only as the next one comes.

The steps of a draft are followed backwards here. What the draft after a token awaits tells what the
draft before it awaits; the number at hand is a numeral since it could be read, as there is nothing
but digits, points and signs in it (`Draft.IsClean`).

§1 lexed tokens · §2 drafts backwards · §3 literals · §4 tokens
-/

namespace MatrixCalc

/-! ## §1 Lexed tokens -/

namespace Token

/-- A token of the characters that the lexer puts into it. -/
def IsLexed : Token → Prop
  | word text => ∀ c ∈ text.toList, isLetter c = true
  | digits text => ∀ c ∈ text.toList, isNumeric c = true
  | _ => True

theorem isLexed_of_cut? {c : Char} {cs : List Char} {t : Cut} (h : cut? c cs = some t) :
    t.token.IsLexed := by
  have hrun : ∀ p : Char → Bool, p c = true →
      ∀ d ∈ (String.ofList (c :: cs.takeWhile p)).toList, p d = true := by
    intro p hc d hd
    rw [String.toList_ofList] at hd
    rcases List.mem_cons.1 hd with rfl | hd
    · exact hc
    · exact List.all_eq_true.1 List.all_takeWhile d hd
  unfold cut? at h
  split at h
  · next hc =>
    cases h
    exact hrun isLetter hc
  split at h
  · next hc =>
    cases h
    exact hrun isNumeric hc
  split at h
  · cases h
    trivial
  · obtain ⟨mark, hmark, rfl⟩ := Option.map_eq_some_iff.1 h
    unfold ofMark? at hmark
    split at hmark <;> cases hmark <;> trivial

theorem Lexes.isLexed {cs : List Char} {ts : List Token} (h : Lexes cs ts) :
    ∀ t ∈ ts, t.IsLexed := by
  induction h with
  | nil => simp
  | cons hcut _ ih =>
    intro t ht
    rcases List.mem_cons.1 ht with rfl | ht
    · exact isLexed_of_cut? hcut
    · exact ih t ht

theorem isNumeral_of_isLexed {t : Token} (h : t.IsLexed) (ht : t = .minus ∨ ∃ s, t = .digits s) :
    ∀ c ∈ t.text.toList, isNumeral c = true := by
  intro c hc
  rcases ht with rfl | ⟨s, rfl⟩
  · obtain rfl : c = '-' := List.mem_singleton.1 hc
    rfl
  · rw [isNumeral, h c hc]
    rfl

end Token

/-! ## §2 Drafts backwards -/

namespace Draft

/-- Nothing but digits, points and signs is in the number at hand. -/
def IsClean (d : Draft) : Prop := ∀ c ∈ d.piece.toList, Token.isNumeral c = true

variable {d e : Draft} {row : List String} {later : List (List String)} {a : DenseMatrix Float}

theorem isClean_of_piece_empty (h : d.piece = "") : d.IsClean := by
  intro c hc
  rw [h] at hc
  exact absurd hc List.not_mem_nil

theorem IsClean.join (h : d.IsClean) {text : String}
    (htext : ∀ c ∈ text.toList, Token.isNumeral c = true) (column : Nat) :
    (d.join text column).IsClean := by
  intro c hc
  rw [show (d.join text column).piece = d.piece ++ text from rfl, String.toList_append] at hc
  rcases List.mem_append.1 hc with hc | hc
  · exact h c hc
  · exact htext c hc

/-- The number at hand was read when it ended, so it is a numeral that was awaited. -/
theorem Awaits.of_flush (hclean : d.IsClean) (he : d.flush.toLogged.result = .ok e) :
    e.piece = "" ∧ e.spaced = false ∧
      ∀ {row later a}, e.Awaits row later a →
        d.Awaits (Token.numeral d.piece ++ row) later a := by
  unfold Draft.flush at he
  by_cases hpiece : d.piece.isEmpty = true
  · rw [if_pos hpiece] at he
    cases he
    refine ⟨String.isEmpty_iff.1 hpiece, rfl, ?_⟩
    intro row later a h
    have hnone : Token.numeral d.piece = [] := if_pos hpiece
    rw [hnone, List.nil_append]
    exact ⟨h.isPlain, h.values, h.cols, h.length_later, h.rows, h.rowLength⟩
  · rw [if_neg hpiece] at he
    cases hread : Numeral.read? d.piece with
    | none =>
      rw [hread] at he
      cases he
    | some value =>
      simp only [hread, Outcome.result_done, Except.ok.injEq] at he
      subst he
      refine ⟨rfl, rfl, ?_⟩
      intro row later a h
      have hone : Token.numeral d.piece = [d.piece] := if_neg hpiece
      have hplain := Numeral.isPlain_of_isSome_read? hclean (by rw [hread]; rfl)
      rw [hone]
      refine ⟨?_, ?_, ?_, h.length_later, h.rows, h.rowLength⟩
      · intro s hs
        rcases List.mem_cons.1 hs with rfl | hs
        · exact hplain
        · exact h.isPlain s hs
      · rw [List.cons_append, List.nil_append, List.cons_append, List.filterMap_cons_some hread,
          ← h.values]
        simp
      · have hcols := h.cols
        simp only [List.cons_append, List.nil_append, List.length_cons] at hcols ⊢
        omega

/-- A row that ended is as long as the first, and not empty. -/
theorem fixRowLength_eq_ok {column : Nat} (he : (d.fixRowLength column).toLogged.result = .ok e) :
    0 < d.cols ∧ (∀ n ∈ d.rowLength?, n = d.cols) ∧ e = { d with rowLength? := some d.cols } := by
  unfold fixRowLength at he
  by_cases hcols : d.cols = 0
  · rw [if_pos hcols] at he
    cases he
  · rw [if_neg hcols] at he
    refine ⟨by omega, ?_⟩
    cases hlength : d.rowLength? with
    | none =>
      rw [hlength] at he
      cases he
      exact ⟨by simp, rfl⟩
    | some n =>
      rw [hlength] at he
      by_cases hn : n = d.cols
      · simp only [if_pos hn, Outcome.result_done, Except.ok.injEq] at he
        subst he hn
        exact ⟨by simp, by rw [← hlength]⟩
      · simp only [if_neg hn] at he
        cases he

theorem Awaits.of_settle {column : Nat} (hclean : d.IsClean)
    (he : (d.settle column).toLogged.result = .ok e) :
    e.piece = "" ∧ e.spaced = false ∧ 0 < e.cols ∧ e.rowLength? = some e.cols ∧
      ∀ {later a}, e.Awaits [] later a → d.Awaits (Token.numeral d.piece) later a := by
  rw [Draft.settle, Outcome.result_andThen] at he
  obtain ⟨f, hf, he⟩ := bind_eq_ok_iff.1 he
  obtain ⟨hpiece, hspaced, hback⟩ := Awaits.of_flush hclean hf
  obtain ⟨hpos, hlength, rfl⟩ := fixRowLength_eq_ok he
  refine ⟨hpiece, hspaced, hpos, rfl, ?_⟩
  intro later a h
  rw [← List.append_nil (Token.numeral d.piece)]
  refine hback ⟨h.isPlain, h.values, h.cols, h.length_later, h.rows, fun n hn => ?_⟩
  exact (hlength n hn).trans h.cols

theorem Awaits.of_endRow {column : Nat} (hclean : d.IsClean)
    (he : (d.endRow column).toLogged.result = .ok e) :
    e.piece = "" ∧ e.spaced = false ∧
      ∀ {row later a}, e.Awaits row later a →
        d.Awaits (Token.numeral d.piece) (row :: later) a := by
  rw [Draft.endRow, Outcome.result_andThen] at he
  obtain ⟨f, hf, he⟩ := bind_eq_ok_iff.1 he
  obtain ⟨hpiece, hspaced, hpos, hlength, hback⟩ := Awaits.of_settle hclean hf
  rw [Outcome.result_done, Except.ok.injEq] at he
  subst he
  refine ⟨hpiece, hspaced, ?_⟩
  intro row later a h
  have hcols : f.cols = a.cols := h.rowLength f.cols hlength
  refine hback ⟨h.isPlain, h.values, hcols, ?_, ?_, h.rowLength⟩
  · intro r hr
    rcases List.mem_cons.1 hr with rfl | hr
    · simpa using h.cols
    · exact h.length_later r hr
  · have hrows := h.rows
    simp only [List.length_cons] at hrows ⊢
    omega

/-- The matrix of a literal that was closed is the one that was awaited. -/
theorem Awaits.of_close {column : Nat} {shape : Shape} {values : Array Float}
    (hclean : d.IsClean) (he : (d.close column).result = .ok (shape, values))
    (hmatrix : DenseMatrix.ofFlat shape.rows shape.cols values = .ok a) :
    0 < a.cols ∧ d.Awaits (Token.numeral d.piece) [] a := by
  rw [Draft.close, Logged.result_bind] at he
  obtain ⟨f, hf, he⟩ := bind_eq_ok_iff.1 he
  obtain ⟨-, -, hpos, hlength, hback⟩ := Awaits.of_settle hclean hf
  cases he
  have hcols : f.shape.cols = f.cols := by rw [Draft.shape, hlength, Option.getD_some]
  have ha : a = ⟨f.shape, f.values⟩ := by
    unfold DenseMatrix.ofFlat at hmatrix
    split at hmatrix
    · cases hmatrix
    split at hmatrix
    · cases hmatrix
    · cases hmatrix
      rfl
  subst ha
  refine ⟨by rw [hcols]; exact hpos, hback ⟨by simp, by simp, ?_, by simp, rfl, ?_⟩⟩
  · exact hcols.symm
  · intro n hn
    rw [hlength] at hn
    cases hn
    exact hcols.symm

theorem Expects.of_addSpace {ts : List Token} (h : d.addSpace.Expects ts a) :
    d.Expects (.space :: ts) a := by
  obtain ⟨row, later, hcoming, hawaits⟩ := h
  refine ⟨row, later, (coming_addSpace d ts).symm.trans hcoming, ?_⟩
  exact ⟨hawaits.isPlain, hawaits.values, hawaits.cols, hawaits.length_later, hawaits.rows,
    hawaits.rowLength⟩

theorem Expects.of_join {t : Token} {ts : List Token} {column : Nat} (hspace : t ≠ .space)
    (hrow : t ≠ .rowEnd) (hspaced : d.spaced = false)
    (h : (d.join t.text column).Expects ts a) : d.Expects (t :: ts) a := by
  obtain ⟨row, later, hcoming, hawaits⟩ := h
  refine ⟨row, later, ?_, ?_⟩
  · rw [← hcoming]
    simp only [coming, Draft.join, hspaced, Bool.false_eq_true, if_false]
    exact Token.rows_digits_cons _ hspace hrow ts
  · exact ⟨hawaits.isPlain, hawaits.values, hawaits.cols, hawaits.length_later, hawaits.rows,
      hawaits.rowLength⟩

theorem Expects.of_addText {t : Token} {column : Nat} (hspace : t ≠ .space)
    (hrow : t ≠ .rowEnd) (hclean : d.IsClean)
    (htext : ∀ c ∈ t.text.toList, Token.isNumeral c = true)
    (he : (d.addText t.text column).toLogged.result = .ok e) :
    e.IsClean ∧ ∀ {ts a}, e.Expects ts a → d.Expects (t :: ts) a := by
  unfold Draft.addText at he
  cases hspaced : d.spaced with
  | false =>
    rw [hspaced] at he
    cases he
    exact ⟨hclean.join htext column, fun h => h.of_join hspace hrow hspaced⟩
  | true =>
    rw [hspaced, if_pos rfl, Outcome.result_andThen] at he
    obtain ⟨f, hf, he⟩ := bind_eq_ok_iff.1 he
    cases he
    obtain ⟨hpiece, hspaced', hback⟩ := Awaits.of_flush hclean hf
    refine ⟨(isClean_of_piece_empty hpiece).join htext column, ?_⟩
    intro ts a h
    -- the number that ended is put before the first row of what the next draft awaits
    obtain ⟨row, later, hcoming, hawaits⟩ := h.of_join hspace hrow hspaced'
    rw [coming_of_piece_empty hpiece hspaced'] at hcoming
    refine ⟨Token.numeral d.piece ++ row, later, ?_, hback hawaits⟩
    simp only [coming, hspaced, if_true, Token.rows_digits_space, hcoming, List.modifyHead_cons]

theorem Expects.of_endRow {column : Nat} (hclean : d.IsClean)
    (he : (d.endRow column).toLogged.result = .ok e) :
    e.IsClean ∧ ∀ {ts a}, e.Expects ts a → d.Expects (.rowEnd :: ts) a := by
  obtain ⟨hpiece, hspaced, hback⟩ := Awaits.of_endRow hclean he
  refine ⟨isClean_of_piece_empty hpiece, ?_⟩
  intro ts a h
  obtain ⟨row, later, hcoming, hawaits⟩ := h
  rw [coming_of_piece_empty hpiece hspaced] at hcoming
  refine ⟨Token.numeral d.piece, row :: later, ?_, hback hawaits⟩
  rw [coming_rowEnd, hcoming]

/-- All that a token can do within a literal: it is a piece of it, or it ends it. -/
theorem Expects.of_step {t : Token} {column : Nat} {next : Reading}
    {item? : Option (Item Float)} (ht : t.IsLexed) (hclean : d.IsClean)
    (h : (Reading.stepInside d t column).result = .ok (next, item?)) :
    (t.isPiece = true ∧ ∃ e, next = .inside e ∧ item? = none ∧ e.IsClean ∧
      ∀ {ts a}, e.Expects ts a → d.Expects (t :: ts) a) ∨
    (t = .literalEnd ∧ ∃ a, next = .outside ∧ item? = some (.operand a) ∧ 0 < a.cols ∧
      d.Expects [] a) := by
  have hgoOn : ∀ {x : Outcome Draft}, (do let next ← x.toLogged; return (.inside next, none) :
      Logged (Reading × Option (Item Float))).result = .ok (next, item?) →
      ∃ e, x.toLogged.result = .ok e ∧ next = .inside e ∧ item? = none := by
    intro x hx
    rw [Reading.result_goOn] at hx
    obtain ⟨e, he, heq⟩ := map_eq_ok_iff.1 hx
    cases heq
    exact ⟨e, he, rfl, rfl⟩
  cases t with
  | digits text =>
    obtain ⟨e, he, rfl, rfl⟩ := hgoOn h
    have htext := Token.isNumeral_of_isLexed ht (.inr ⟨text, rfl⟩)
    obtain ⟨hclean', hback⟩ := Expects.of_addText (by simp) (by simp) hclean htext he
    exact .inl ⟨rfl, e, rfl, rfl, hclean', hback⟩
  | minus =>
    obtain ⟨e, he, rfl, rfl⟩ := hgoOn h
    have htext := Token.isNumeral_of_isLexed ht (.inl rfl)
    obtain ⟨hclean', hback⟩ := Expects.of_addText (by simp) (by simp) hclean htext he
    exact .inl ⟨rfl, e, rfl, rfl, hclean', hback⟩
  | rowEnd =>
    obtain ⟨e, he, rfl, rfl⟩ := hgoOn h
    obtain ⟨hclean', hback⟩ := Expects.of_endRow hclean he
    exact .inl ⟨rfl, e, rfl, rfl, hclean', hback⟩
  | space =>
    cases h
    exact .inl ⟨rfl, d.addSpace, rfl, rfl, hclean, Expects.of_addSpace⟩
  | literalEnd =>
    simp only [Reading.stepInside, Logged.result_bind] at h
    obtain ⟨⟨shape, values⟩, hclose, h⟩ := bind_eq_ok_iff.1 h
    cases hmatrix : DenseMatrix.ofFlat shape.rows shape.cols values with
    | error f =>
      simp only [hmatrix] at h
      cases h
    | ok a =>
      simp only [hmatrix] at h
      cases h
      obtain ⟨hpos, hawaits⟩ := Awaits.of_close hclean hclose hmatrix
      exact .inr ⟨rfl, a, rfl, rfl, hpos, _, [], coming_nil d, hawaits⟩
  | word text =>
    simp only [Reading.stepInside, Reading.operatorOf] at h
    cases hword : Unary.ofWord? text with
    | none =>
      simp only [hword] at h
      cases h
    | some u =>
      simp only [hword] at h
      cases h
  | plus => cases h
  | star => cases h
  | opening => cases h
  | closing => cases h
  | literalStart => cases h

end Draft

/-! ## §3 Literals -/

theorem Token.isBody_of_expects {body : List Token} {a : DenseMatrix Float}
    (hpieces : ∀ t ∈ body, t.isPiece = true) (hpos : 0 < a.cols)
    (h : Draft.opened.Expects body a) : IsBody a.cols body ∧ matrix a.cols body = a := by
  obtain ⟨row, later, hcoming, hawaits⟩ := h
  have hrows : rows body = row :: later :=
    (Draft.coming_of_piece_empty rfl rfl).symm.trans hcoming
  have hflatten : (rows body).flatten = row ++ later.flatten := by rw [hrows, List.flatten_cons]
  have hrow : row.length = a.cols := by simpa [Draft.opened, Draft.empty] using hawaits.cols
  refine ⟨⟨hpieces, hpos, ?_, ?_⟩, ?_⟩
  · intro r hr
    rw [hrows] at hr
    rcases List.mem_cons.1 hr with rfl | hr
    · exact hrow
    · exact hawaits.length_later r hr
  · rw [hflatten]
    exact hawaits.isPlain
  · have hcount : (rows body).length = a.rows := by
      have h := hawaits.rows
      rw [hrows, List.length_cons, Nat.add_comm]
      exact h
    have hvalues : ((rows body).flatten.filterMap Numeral.read?).toArray = a.values := by
      apply Array.ext'
      rw [hflatten]
      exact hawaits.values
    obtain ⟨⟨m, n⟩, values⟩ := a
    simp only [matrix, hcount, hvalues]

namespace Reading

/-- A literal that was read and ended was a body and the bracket after it. -/
theorem exists_body {placed : List Placed} {d : Draft} {xs : List (Item Float)}
    (hlexed : ∀ p ∈ placed, p.token.IsLexed) (hclean : d.IsClean)
    (h : (items placed (inside d)).result = .ok (xs, outside)) :
    ∃ body front rest a ys, placed = front ++ rest ∧
      front.map Placed.token = body ++ [.literalEnd] ∧ (∀ t ∈ body, t.isPiece = true) ∧
      0 < a.cols ∧ d.Expects body a ∧ xs = .operand a :: ys ∧
      (items rest outside).result = .ok (ys, outside) := by
  induction placed generalizing d xs with
  | nil => cases h
  | cons p placed ih =>
    rw [items, Logged.result_bind] at h
    obtain ⟨⟨next, item?⟩, hstep, h⟩ := bind_eq_ok_iff.1 h
    rw [Logged.result_bind] at h
    obtain ⟨⟨later, last⟩, hitems, h⟩ := bind_eq_ok_iff.1 h
    cases h
    have hlexed' : ∀ q ∈ placed, q.token.IsLexed := fun q hq => hlexed q (List.mem_cons_of_mem p hq)
    rcases Draft.Expects.of_step (hlexed p List.mem_cons_self) hclean hstep with
      ⟨hpiece, e, rfl, rfl, hclean', hback⟩ | ⟨hend, a, rfl, rfl, hpos, hexpects⟩
    · obtain ⟨body, front, rest, a, ys, rfl, hfront, hpieces, hpos, hexpects, rfl, hrest⟩ :=
        ih hlexed' hclean' hitems
      refine ⟨p.token :: body, p :: front, rest, a, ys, rfl, ?_, ?_, hpos, hback hexpects, rfl,
        hrest⟩
      · rw [List.map_cons, hfront, List.cons_append]
      · intro t ht
        rcases List.mem_cons.1 ht with rfl | ht
        · exact hpiece
        · exact hpieces t ht
    · exact ⟨[], [p], placed, a, later, rfl, by rw [List.map_singleton, hend]; rfl, by simp, hpos,
        hexpects, rfl, hitems⟩

/-! ## §4 Tokens -/

/-- All that a token can do outside every literal. -/
theorem stepOutside_cases {t : Token} {column : Nat} {next : Reading}
    {item? : Option (Item Float)} (h : (stepOutside t column).result = .ok (next, item?)) :
    (t = .space ∧ next = outside ∧ item? = none) ∨
    (∃ op, t.operator? = some op ∧ next = outside ∧ item? = some (.operator op)) ∨
    (t = .literalStart ∧ next = inside .opened ∧ item? = none) := by
  cases t with
  | word text =>
    simp only [stepOutside, operatorOf] at h
    cases hword : Unary.ofWord? text with
    | none =>
      simp only [hword] at h
      cases h
    | some u =>
      simp only [hword] at h
      cases h
      exact .inr (.inl ⟨.unary u, by rw [Token.operator?, hword]; rfl, rfl, rfl⟩)
  | minus => cases h; exact .inr (.inl ⟨_, rfl, rfl, rfl⟩)
  | plus => cases h; exact .inr (.inl ⟨_, rfl, rfl, rfl⟩)
  | star => cases h; exact .inr (.inl ⟨_, rfl, rfl, rfl⟩)
  | opening => cases h; exact .inr (.inl ⟨_, rfl, rfl, rfl⟩)
  | closing => cases h; exact .inr (.inl ⟨_, rfl, rfl, rfl⟩)
  | literalStart => cases h; exact .inr (.inr ⟨rfl, rfl, rfl⟩)
  | space => cases h; exact .inl ⟨rfl, rfl, rfl⟩
  | digits text => cases h
  | literalEnd => cases h
  | rowEnd => cases h

/-- Lexed tokens that are read without fault write down their items. -/
theorem spells_of_items {placed : List Placed} {xs : List (Item Float)}
    (hlexed : ∀ p ∈ placed, p.token.IsLexed)
    (h : (items placed outside).result = .ok (xs, outside)) :
    Token.Spells (placed.map Placed.token) xs := by
  -- a literal takes many tokens at once, so the induction is on how many there are
  induction hlen : placed.length using Nat.strongRecOn generalizing placed xs with
  | ind n ih =>
    cases placed with
    | nil =>
      cases h
      exact .nil
    | cons p placed =>
      rw [items, Logged.result_bind] at h
      obtain ⟨⟨next, item?⟩, hstep, h⟩ := bind_eq_ok_iff.1 h
      rw [Logged.result_bind] at h
      obtain ⟨⟨later, last⟩, hitems, h⟩ := bind_eq_ok_iff.1 h
      cases h
      have hlexed' : ∀ q ∈ placed, q.token.IsLexed :=
        fun q hq => hlexed q (List.mem_cons_of_mem p hq)
      have hshort : placed.length < n := by simp [← hlen]
      rw [List.map_cons]
      rcases stepOutside_cases hstep with
        ⟨ht, rfl, rfl⟩ | ⟨op, ht, rfl, rfl⟩ | ⟨ht, rfl, rfl⟩
      · rw [ht]
        exact .space (ih _ hshort hlexed' hitems rfl)
      · exact .operator ht (ih _ hshort hlexed' hitems rfl)
      · obtain ⟨body, front, rest, a, ys, rfl, hfront, hpieces, hpos, hexpects, rfl, hrest⟩ :=
          exists_body hlexed' (Draft.isClean_of_piece_empty rfl) hitems
        obtain ⟨hbody, hmatrix⟩ := Token.isBody_of_expects hpieces hpos hexpects
        have hlexedRest : ∀ q ∈ rest, q.token.IsLexed :=
          fun q hq => hlexed' q (List.mem_append_right front hq)
        have hshortRest : rest.length < n := by
          rw [List.length_append] at hshort
          omega
        have hspells := ih _ hshortRest hlexedRest hrest rfl
        rw [ht, List.map_append, hfront, List.append_assoc, ← hmatrix]
        exact .literal a.cols body hbody hspells

end Reading

/-- Reading accepts the tokens that write down operators and well-formed literals and no others, and
its items are what they write down. A list in memory has fewer than `2 ^ 64` tokens, so the entries
of its literals can be counted. -/
theorem items_iff_spells {placed : List Placed} (hlexed : ∀ p ∈ placed, p.token.IsLexed)
    (hsize : placed.length < DenseMatrix.wordCount) (items : List (Item Float)) (column : Nat) :
    (∃ last, (Reading.items placed .outside).result = .ok (items, last) ∧
      last.finish column = .ok ()) ↔
      Token.Spells (placed.map Placed.token) items := by
  constructor
  · rintro ⟨last, hitems, hlast⟩
    cases last with
    | outside => exact Reading.spells_of_items hlexed hitems
    | inside d => cases hlast
  · intro h
    exact ⟨.outside, h.items_eq (by rwa [List.length_map]) rfl, rfl⟩

/-- A sign begins a numeral after a space, and a point may stand at either end of it. -/
theorem items_iff_spells_signs :
    let body : List Token := [.digits "1", .space, .minus, .digits ".5", .rowEnd, .space, .minus,
      .digits "2.", .space, .digits "3", .space]
    let placed : List Placed := [⟨.word "ref", 0⟩, ⟨.literalStart, 3⟩, ⟨.digits "1", 4⟩,
      ⟨.space, 5⟩, ⟨.minus, 6⟩, ⟨.digits ".5", 7⟩, ⟨.rowEnd, 9⟩, ⟨.space, 10⟩, ⟨.minus, 11⟩,
      ⟨.digits "2.", 12⟩, ⟨.space, 14⟩, ⟨.digits "3", 15⟩, ⟨.space, 16⟩, ⟨.literalEnd, 17⟩]
    Token.lex "ref[1 -.5; -2. 3 ]" = .ok placed ∧
      (∀ p ∈ placed, p.token.IsLexed) ∧ placed.length < DenseMatrix.wordCount ∧
      ∃ last, (Reading.items placed .outside).result =
          .ok ([.operator (.unary .ref), .operand (Token.matrix 2 body)], last) ∧
        last.finish 18 = .ok () := by
  intro body placed
  have hlex : Token.lex "ref[1 -.5; -2. 3 ]" = .ok placed := by decide +kernel
  have hlexed : ∀ p ∈ placed, p.token.IsLexed := fun p hp =>
    (Token.lexes_of_lexFrom hlex).isLexed p.token (List.mem_map_of_mem hp)
  have hsize : placed.length < DenseMatrix.wordCount := by decide
  have hbody : Token.IsBody 2 body := by constructor <;> decide +kernel
  have hspells : Token.Spells (placed.map Placed.token)
      [.operator (.unary .ref), .operand (Token.matrix 2 body)] :=
    .operator rfl <| .literal 2 body hbody .nil
  exact ⟨hlex, hlexed, hsize, (items_iff_spells hlexed hsize _ 18).2 hspells⟩

end MatrixCalc
