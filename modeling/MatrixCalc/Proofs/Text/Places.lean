import MatrixCalc.Proofs.Outline.Faults
import MatrixCalc.Proofs.Text.Pieces
import MatrixCalc.Proofs.Text.Scanning

/-!
# The places of faults

A fault of the text names a column, and the text at that column is what the fault is about
(`fault_points_into_text`). The column of an invalid number was noted tokens before the fault, when
the number began, so reading is followed with the text behind it: `Draft.Follows` says where in that
text the number at hand stands.

§1 what faults are about · §2 drafts in a text · §3 tokens · §4 whole texts
-/

namespace MatrixCalc

/-! ## §1 What faults are about -/

namespace Text

/-- Whether a text ends within a literal: the last of the brackets of literals in it opens one. -/
def endsInLiteral (cs : List Char) : Bool :=
  (cs.filter fun c => c == '[' || c == ']').getLast? == some '['

/-- A whole run of characters of some class: not empty, and not to be made longer on either side. -/
structure IsRun (p : Char → Bool) (before run after : List Char) : Prop where
  ne_nil : run ≠ []
  inClass : ∀ c ∈ run, p c = true
  before : ∀ c ∈ before.getLast?, p c = false
  after : ∀ c ∈ after.head?, p c = false

theorem endsInLiteral_append {cs ds : List Char} (h : ∀ c ∈ ds, c ≠ '[' ∧ c ≠ ']') :
    endsInLiteral (cs ++ ds) = endsInLiteral cs := by
  have hnone : (ds.filter fun c => c == '[' || c == ']') = [] := by
    rw [List.filter_eq_nil_iff]
    intro c hc
    simp [h c hc]
  rw [endsInLiteral, List.filter_append, hnone, List.append_nil, endsInLiteral]

@[simp] theorem endsInLiteral_append_start (cs : List Char) :
    endsInLiteral (cs ++ ['[']) = true := by
  simp [endsInLiteral]

@[simp] theorem endsInLiteral_append_end (cs : List Char) :
    endsInLiteral (cs ++ [']']) = false := by
  simp [endsInLiteral]

end Text

/-- What a fault of the text is about: a part of the text between what is before and after it. -/
def TextCause.IsAbout (before run after : List Char) : TextCause → Prop
  | .invalidCharacter text =>
    run = text.toList ∧ (∃ c, run = [c] ∧ c ∉ Token.alphabet) ∧ ∀ b ∈ before, b ∈ Token.alphabet
  | .unknownWord word =>
    run = word.toList ∧ Text.IsRun Token.isLetter before run after ∧ ∀ u : Unary, word ≠ u.word
  | .numberOutside text => run = text.toList ∧ Text.IsRun Token.isNumeric before run after
  | .invalidNumber text =>
    run = text.toList ∧ Text.IsRun Token.isNumeral before run after ∧
      Text.endsInLiteral before = true ∧ Numeral.read? text = none
  | .emptyRow | .unevenRow _ _ => run = [';'] ∨ run = [']']
  | .strayBracket =>
    (run = [] ∧ after = [] ∧ Text.endsInLiteral before = true) ∨
      (∃ c ∈ "[];+*()".toList, run = [c]) ∨
      Text.IsRun Token.isLetter before run after ∧ ∃ u : Unary, run = u.word.toList

/-- The column of the fault is the number of bytes before the part of the text that it is about. -/
def TextFault.PointsInto (source : List Char) (f : TextFault) : Prop :=
  ∃ before run after, source = before ++ run ++ after ∧ Text.byteLength before = f.column ∧
    f.cause.IsAbout before run after

/-! ## §2 Drafts in a text -/

namespace Draft

/-- Where a draft stands in the text of its literal: the number at hand began after `front`, and
nothing but spacing came after it. -/
structure Follows (d : Draft) (front blank : List Char) : Prop where
  inLiteral : Text.endsInLiteral front = true
  isClean : d.IsClean
  start : ∀ c ∈ front.getLast?, Token.isNumeral c = false
  column : d.piece ≠ "" → d.pieceColumn = Text.byteLength front
  isSpacing : ∀ c ∈ blank, Token.isSpacing c = true
  spaced : d.spaced = !blank.isEmpty

variable {d e : Draft} {front blank : List Char} {f : Fault}

theorem follows_opened (seen : List Char) : opened.Follows (seen ++ ['[']) [] where
  inLiteral := Text.endsInLiteral_append_start seen
  isClean := isClean_of_piece_empty rfl
  start c hc := by
    obtain rfl : '[' = c := by simpa using hc
    rfl
  column h := absurd rfl h
  isSpacing _ hc := nomatch hc
  spaced := rfl

/-- The number at hand and the spacing after it leave the literal open. -/
theorem Follows.endsInLiteral (h : d.Follows front blank) :
    Text.endsInLiteral (front ++ d.piece.toList ++ blank) = true := by
  have hpiece : ∀ c ∈ d.piece.toList, c ≠ '[' ∧ c ≠ ']' := by
    intro c hc
    have hnumeral := h.isClean c hc
    constructor <;> rintro rfl <;> cases hnumeral
  have hblank : ∀ c ∈ blank, c ≠ '[' ∧ c ≠ ']' := by
    intro c hc
    have hspacing := h.isSpacing c hc
    constructor <;> rintro rfl <;> cases hspacing
  rw [Text.endsInLiteral_append hblank, Text.endsInLiteral_append hpiece, h.inLiteral]

theorem Follows.addSpace (h : d.Follows front blank) {run : List Char} (hne : run ≠ [])
    (hrun : ∀ c ∈ run, Token.isSpacing c = true) : d.addSpace.Follows front (blank ++ run) where
  inLiteral := h.inLiteral
  isClean := h.isClean
  start := h.start
  column := h.column
  isSpacing := List.forall_mem_append.2 ⟨h.isSpacing, hrun⟩
  spaced := by simp [Draft.addSpace, hne]

/-- Text of a number goes on with the number at hand if no spacing came after it. -/
theorem Follows.join (h : d.Follows front []) {text : String}
    (htext : ∀ c ∈ text.toList, Token.isNumeral c = true) :
    (d.join text (Text.byteLength (front ++ d.piece.toList))).Follows front [] where
  inLiteral := h.inLiteral
  isClean := h.isClean.join htext _
  start := h.start
  column _ := by
    by_cases hpiece : d.piece = ""
    · simp [Draft.join, hpiece]
    · simpa [Draft.join, hpiece] using h.column hpiece
  isSpacing := h.isSpacing
  spaced := h.spaced

/-- A number that was ended leaves none at hand. -/
theorem Follows.of_flush (h : d.Follows front blank) (hspaced : d.spaced = true)
    (he : d.flush.toLogged.result = .ok e) :
    e.piece = "" ∧ e.Follows (front ++ d.piece.toList ++ blank) [] := by
  obtain ⟨hpiece, hspaced', -⟩ := Awaits.of_flush h.isClean he
  refine ⟨hpiece, h.endsInLiteral, isClean_of_piece_empty hpiece, ?_, fun hne => absurd hpiece hne,
    (fun _ hc => nomatch hc), hspaced'⟩
  -- the last character is spacing
  have hne : blank ≠ [] := by
    rintro rfl
    rw [h.spaced] at hspaced
    cases hspaced
  intro c hc
  rw [List.getLast?_append_of_ne_nil _ hne] at hc
  exact Token.isNumeral_of_isSpacing (h.isSpacing c (List.mem_of_getLast? hc))

/-- A number that cannot be ended is no numeral, and it stands where it was begun. -/
theorem Follows.pointsInto_of_flush (h : d.Follows front blank) {after : List Char}
    (hafter : ∀ c ∈ (blank ++ after).head?, Token.isNumeral c = false)
    (hf : d.flush.toLogged.result = .error f) :
    ∃ g, f = .text g ∧ g.PointsInto (front ++ d.piece.toList ++ blank ++ after) := by
  unfold Draft.flush at hf
  by_cases hpiece : d.piece.isEmpty = true
  · rw [if_pos hpiece] at hf
    cases hf
  have hne : d.piece ≠ "" := fun h => hpiece (String.isEmpty_iff.2 h)
  rw [if_neg hpiece] at hf
  cases hread : Numeral.read? d.piece with
  | some value =>
    rw [hread] at hf
    cases hf
  | none =>
    rw [hread] at hf
    cases hf
    refine ⟨_, rfl, front, d.piece.toList, blank ++ after, by simp, (h.column hne).symm, rfl, ?_,
      h.inLiteral, hread⟩
    exact ⟨by simpa using hne, h.isClean, h.start, hafter⟩

/-- A row that cannot end has its fault at the character that was to end it. -/
theorem pointsInto_of_fixRowLength {before after : List Char} {c : Char} (hc : c = ';' ∨ c = ']')
    (hf : (d.fixRowLength (Text.byteLength before)).toLogged.result = .error f) :
    ∃ g, f = .text g ∧ g.PointsInto (before ++ [c] ++ after) := by
  have hrun : [c] = [';'] ∨ [c] = [']'] := by simpa using hc
  unfold fixRowLength at hf
  split at hf
  · cases hf
    exact ⟨_, rfl, before, [c], after, rfl, rfl, hrun⟩
  split at hf
  · cases hf
  split at hf
  · cases hf
  · cases hf
    exact ⟨_, rfl, before, [c], after, rfl, rfl, hrun⟩

theorem Follows.pointsInto_of_settle (h : d.Follows front blank) (after : List Char) {c : Char}
    (hc : c = ';' ∨ c = ']')
    (hf : (d.settle (Text.byteLength (front ++ d.piece.toList ++ blank))).toLogged.result =
      .error f) :
    ∃ g, f = .text g ∧ g.PointsInto (front ++ d.piece.toList ++ blank ++ [c] ++ after) := by
  rw [Draft.settle, Outcome.result_andThen] at hf
  rcases bind_eq_error_iff.1 hf with hflush | ⟨e, -, hfix⟩
  · rw [List.append_assoc _ [c]]
    refine h.pointsInto_of_flush ?_ hflush
    -- what follows the number is spacing or the character that ends the row
    intro b hb
    cases blank with
    | nil =>
      obtain rfl : c = b := by simpa using hb
      rcases hc with rfl | rfl <;> rfl
    | cons s blank =>
      obtain rfl : s = b := by simpa using hb
      exact Token.isNumeral_of_isSpacing (h.isSpacing s List.mem_cons_self)
  · exact pointsInto_of_fixRowLength hc hfix

/-- A row that was ended leaves no number at hand. -/
theorem Follows.of_endRow (h : d.Follows front blank) {column : Nat}
    (he : (d.endRow column).toLogged.result = .ok e) :
    e.piece = "" ∧ e.Follows (front ++ d.piece.toList ++ blank ++ [';']) [] := by
  obtain ⟨hpiece, hspaced, -⟩ := Awaits.of_endRow h.isClean he
  refine ⟨hpiece, ?_, isClean_of_piece_empty hpiece, ?_, fun hne => absurd hpiece hne,
    (fun _ hc => nomatch hc), hspaced⟩
  · rw [Text.endsInLiteral_append (by simp), h.endsInLiteral]
  · intro c hc
    obtain rfl : ';' = c := by simpa using hc
    rfl

/-- Text of a number leaves it at hand, after the number before it was ended if spacing came. -/
theorem Follows.of_addText (h : d.Follows front blank) {text : String}
    (htext : ∀ c ∈ text.toList, Token.isNumeral c = true)
    (he : (d.addText text (Text.byteLength (front ++ d.piece.toList ++ blank))).toLogged.result =
      .ok e) :
    ∃ front', front' ++ e.piece.toList = front ++ d.piece.toList ++ blank ++ text.toList ∧
      e.Follows front' [] := by
  unfold Draft.addText at he
  cases blank with
  | nil =>
    have hspaced : d.spaced = false := h.spaced
    rw [List.append_nil] at he ⊢
    rw [hspaced] at he
    cases he
    refine ⟨front, ?_, h.join htext⟩
    show front ++ (d.piece ++ text).toList = _
    rw [String.toList_append, List.append_assoc]
  | cons s blank =>
    have hspaced : d.spaced = true := h.spaced
    rw [hspaced, if_pos rfl, Outcome.result_andThen] at he
    obtain ⟨f, hf, he⟩ := bind_eq_ok_iff.1 he
    cases he
    obtain ⟨hpiece, hfollows⟩ := h.of_flush hspaced hf
    have hjoin := hfollows.join htext
    rw [hpiece, String.toList_empty, List.append_nil] at hjoin
    refine ⟨_, ?_, hjoin⟩
    show _ ++ (f.piece ++ text).toList = _
    rw [hpiece, String.empty_append]

theorem Follows.pointsInto_of_addText (h : d.Follows front blank) (after : List Char)
    {text : String} {column : Nat} (hf : (d.addText text column).toLogged.result = .error f) :
    ∃ g, f = .text g ∧ g.PointsInto (front ++ d.piece.toList ++ blank ++ after) := by
  unfold Draft.addText at hf
  cases blank with
  | nil =>
    have hspaced : d.spaced = false := h.spaced
    rw [hspaced] at hf
    cases hf
  | cons s blank =>
    have hspaced : d.spaced = true := h.spaced
    rw [hspaced, if_pos rfl, Outcome.result_andThen] at hf
    rcases bind_eq_error_iff.1 hf with hflush | ⟨e, -, hjoin⟩
    · refine h.pointsInto_of_flush ?_ hflush
      intro b hb
      obtain rfl : s = b := by simpa using hb
      exact Token.isNumeral_of_isSpacing (h.isSpacing s List.mem_cons_self)
    · cases hjoin

end Draft

/-! ## §3 Tokens -/

namespace Token

variable {t : Token} {run : List Char}

/-- Every token but spacing has one written form. -/
theorem Writes.eq_text (h : t.Writes run) (hspace : t ≠ .space) : run = t.text.toList := by
  cases h with
  | word hne h => exact String.toList_ofList.symm
  | digits hne h => exact String.toList_ofList.symm
  | space hne h => exact absurd rfl hspace
  | mark h =>
    unfold ofMark? at h
    split at h <;> cases h <;> rfl

theorem Writes.of_space (h : Writes .space run) : run ≠ [] ∧ ∀ c ∈ run, isSpacing c = true := by
  cases h with
  | space hne h => exact ⟨hne, h⟩
  | mark h =>
    unfold ofMark? at h
    split at h <;> cases h

theorem Writes.isLexed (h : t.Writes run) : t.IsLexed := by
  cases h with
  | word hne h => rwa [IsLexed, String.toList_ofList]
  | digits hne h => rwa [IsLexed, String.toList_ofList]
  | space hne h => trivial
  | mark h =>
    unfold ofMark? at h
    split at h <;> cases h <;> trivial

end Token

namespace Reading

/-- Where reading stands in a text: within a literal only if the text behind it ends in one. -/
def Follows (seen : List Char) : Reading → Prop
  | outside => Text.endsInLiteral seen = false
  | inside d => ∃ front blank, seen = front ++ d.piece.toList ++ blank ∧ d.Follows front blank

variable {t : Token} {run seen after : List Char} {r next : Reading}
  {item? : Option (Item Float)} {f : Fault} {d : Draft}

theorem operatorOf_eq_ok {word : String} {column : Nat} {op : Operator}
    (h : operatorOf word column = .ok op) : ∃ u : Unary, word = u.word := by
  unfold operatorOf at h
  split at h
  · next u hu => exact ⟨u, Unary.word_of_ofWord? hu⟩
  · cases h

theorem operatorOf_eq_error {word : String} {column : Nat} {g : TextFault}
    (h : operatorOf word column = .error g) :
    g = ⟨.unknownWord word, column⟩ ∧ ∀ u : Unary, word ≠ u.word := by
  unfold operatorOf at h
  split at h
  · cases h
  · next hnone =>
    cases h
    refine ⟨rfl, ?_⟩
    rintro u rfl
    rw [Unary.ofWord?_word] at hnone
    cases hnone

/-- Only the brackets of literals lead into a literal and out of it. -/
theorem endsInLiteral_of_writes (ht : t.Writes run) (hstart : t ≠ .literalStart)
    (hend : t ≠ .literalEnd) : Text.endsInLiteral (seen ++ run) = Text.endsInLiteral seen := by
  refine Text.endsInLiteral_append fun c hc => ?_
  cases ht with
  | word hne h =>
    have hletter := h c hc
    constructor <;> rintro rfl <;> cases hletter
  | digits hne h =>
    have hnumeric := h c hc
    constructor <;> rintro rfl <;> cases hnumeric
  | space hne h =>
    have hspacing := h c hc
    constructor <;> rintro rfl <;> cases hspacing
  | mark h =>
    obtain rfl := List.mem_singleton.1 hc
    constructor <;> rintro rfl
    · exact hstart (Option.some.inj h).symm
    · exact hend (Option.some.inj h).symm

theorem Follows.of_stepOutside (h : Text.endsInLiteral seen = false) (ht : t.Writes run)
    {column : Nat} (hstep : (stepOutside t column).result = .ok (next, item?)) :
    next.Follows (seen ++ run) := by
  rcases stepOutside_cases hstep with
    ⟨rfl, rfl, rfl⟩ | ⟨op, hop, rfl, rfl⟩ | ⟨rfl, rfl, rfl⟩
  · exact (endsInLiteral_of_writes ht (by simp) (by simp)).trans h
  · refine (endsInLiteral_of_writes ht ?_ ?_).trans h <;> rintro rfl <;> cases hop
  · rw [ht.eq_text (by simp)]
    exact ⟨_, [], by simp [Draft.opened, Draft.empty, Token.text], Draft.follows_opened seen⟩

theorem Follows.of_stepInside {front blank : List Char} (h : d.Follows front blank)
    (hseen : seen = front ++ d.piece.toList ++ blank) (ht : t.Writes run)
    (hstep : (stepInside d t (Text.byteLength seen)).result = .ok (next, item?)) :
    next.Follows (seen ++ run) := by
  have haddText {text : String} (htext : ∀ c ∈ text.toList, Token.isNumeral c = true)
      (hx : ((d.addText text (Text.byteLength seen)).toLogged.result.map fun e =>
        (inside e, (none : Option (Item Float)))) = .ok (next, item?)) :
      next.Follows (seen ++ text.toList) := by
    obtain ⟨e, he, heq⟩ := map_eq_ok_iff.1 hx
    cases heq
    rw [hseen] at he ⊢
    obtain ⟨front', htext', hfollows⟩ := h.of_addText htext he
    exact ⟨front', [], by rw [← htext', List.append_nil], hfollows⟩
  cases t with
  | digits text =>
    rw [stepInside, result_goOn] at hstep
    rw [ht.eq_text (by simp)]
    exact haddText (fun c hc => by rw [Token.isNumeral, ht.isLexed c hc, Bool.true_or]) hstep
  | minus =>
    rw [stepInside, result_goOn] at hstep
    rw [ht.eq_text (by simp)]
    exact haddText (List.all_eq_true.1 rfl) hstep
  | space =>
    cases hstep
    obtain ⟨hne, hrun⟩ := ht.of_space
    exact ⟨front, blank ++ run, by simp [hseen, Draft.addSpace], h.addSpace hne hrun⟩
  | rowEnd =>
    rw [stepInside, result_goOn] at hstep
    obtain ⟨e, he, heq⟩ := map_eq_ok_iff.1 hstep
    cases heq
    obtain ⟨hpiece, hfollows⟩ := h.of_endRow he
    rw [ht.eq_text (by simp), hseen]
    exact ⟨_, [], by simp [hpiece, Token.text], hfollows⟩
  | literalEnd =>
    simp only [stepInside, Logged.result_bind] at hstep
    obtain ⟨⟨shape, values⟩, -, hstep⟩ := bind_eq_ok_iff.1 hstep
    cases hmatrix : DenseMatrix.ofFlat shape.rows shape.cols values with
    | error f =>
      simp only [hmatrix] at hstep
      cases hstep
    | ok a =>
      simp only [hmatrix] at hstep
      cases hstep
      rw [ht.eq_text (by simp)]
      exact Text.endsInLiteral_append_end seen
  | word text =>
    simp only [stepInside] at hstep
    cases hword : operatorOf text (Text.byteLength seen) <;> simp only [hword] at hstep <;>
      cases hstep
  | plus => cases hstep
  | star => cases hstep
  | opening => cases hstep
  | closing => cases hstep
  | literalStart => cases hstep

/-- A token that is read leaves reading where the text behind it ends. -/
theorem Follows.of_step (h : r.Follows seen) (ht : t.Writes run)
    (hstep : (r.step t (Text.byteLength seen)).result = .ok (next, item?)) :
    next.Follows (seen ++ run) := by
  cases r with
  | outside => exact .of_stepOutside h ht hstep
  | inside d =>
    obtain ⟨front, blank, hseen, hfollows⟩ := h
    exact .of_stepInside hfollows hseen ht hstep

/-- A run of a class between two boundaries is a whole one. -/
theorem isRun_of_boundary {p : Char → Bool}
    (hp : ∀ c d, p c = true → p d = true → Token.sameRun c d = true) (hne : run ≠ [])
    (hrun : ∀ c ∈ run, p c = true) (hbefore : Token.Boundary seen (run ++ after))
    (hafter : Token.Boundary run after) : Text.IsRun p seen run after where
  ne_nil := hne
  inClass := hrun
  before c hc := by
    obtain ⟨d, ds, rfl⟩ := List.exists_cons_of_ne_nil hne
    refine Bool.eq_false_iff.2 fun hpc => ?_
    have hsame := hp c d hpc (hrun d List.mem_cons_self)
    rw [hbefore c hc d rfl] at hsame
    cases hsame
  after d hd := by
    refine Bool.eq_false_iff.2 fun hpd => ?_
    have hlast := List.getLast_mem hne
    have hsame := hp _ d (hrun _ hlast) hpd
    rw [hafter _ (List.getLast?_eq_some_getLast hne) d hd] at hsame
    cases hsame

/-- A word is a whole run of letters. -/
theorem isRun_word {text : String} (ht : (Token.word text).Writes run)
    (hbefore : Token.Boundary seen (run ++ after)) (hafter : Token.Boundary run after) :
    Text.IsRun Token.isLetter seen run after := by
  have hletters := ht.isLexed
  rw [Token.IsLexed, ← show run = text.toList from ht.eq_text (by simp)] at hletters
  exact isRun_of_boundary (fun c d hc hd => by rw [Token.sameRun_of_isLetter hc, hd]) ht.ne_nil
    hletters hbefore hafter

theorem pointsInto_stray (ht : t.Writes run)
    (hmark : ∃ c ∈ "[];+*()".toList, t.text.toList = [c]) :
    TextFault.PointsInto (seen ++ run ++ after) ⟨.strayBracket, Text.byteLength seen⟩ := by
  obtain ⟨c, hc, htext⟩ := hmark
  have hspace : t ≠ .space := by
    rintro rfl
    obtain rfl : ' ' = c := by simpa [Token.text] using htext
    exact absurd hc (by decide)
  exact ⟨seen, run, after, rfl, rfl, .inr (.inl ⟨c, hc, (ht.eq_text hspace).trans htext⟩)⟩

theorem pointsInto_of_operatorOf_eq_error {text : String} {g : TextFault}
    (ht : (Token.word text).Writes run) (hbefore : Token.Boundary seen (run ++ after))
    (hafter : Token.Boundary run after)
    (h : operatorOf text (Text.byteLength seen) = .error g) :
    g.PointsInto (seen ++ run ++ after) := by
  obtain ⟨rfl, hunknown⟩ := operatorOf_eq_error h
  exact ⟨seen, run, after, rfl, rfl, ht.eq_text (by simp), isRun_word ht hbefore hafter, hunknown⟩

theorem pointsInto_of_stepOutside {g : TextFault} (ht : t.Writes run)
    (hbefore : Token.Boundary seen (run ++ after)) (hafter : Token.Boundary run after)
    (hstep : (stepOutside t (Text.byteLength seen)).result = .error (.text g)) :
    g.PointsInto (seen ++ run ++ after) := by
  cases t with
  | word text =>
    simp only [stepOutside] at hstep
    cases hword : operatorOf text (Text.byteLength seen) with
    | ok op =>
      simp only [hword] at hstep
      cases hstep
    | error g' =>
      simp only [hword] at hstep
      cases hstep
      exact pointsInto_of_operatorOf_eq_error ht hbefore hafter hword
  | digits text =>
    cases hstep
    have hrun : run = text.toList := ht.eq_text (by simp)
    have hdigits := ht.isLexed
    rw [Token.IsLexed, ← hrun] at hdigits
    refine ⟨seen, run, after, rfl, rfl, hrun, ?_⟩
    exact isRun_of_boundary (fun c d hc hd => by rw [Token.sameRun_of_isNumeric hc, hd])
      ht.ne_nil hdigits hbefore hafter
  | literalEnd =>
    cases hstep
    exact pointsInto_stray ht ⟨']', by decide, rfl⟩
  | rowEnd =>
    cases hstep
    exact pointsInto_stray ht ⟨';', by decide, rfl⟩
  | minus => cases hstep
  | plus => cases hstep
  | star => cases hstep
  | opening => cases hstep
  | closing => cases hstep
  | literalStart => cases hstep
  | space => cases hstep

theorem pointsInto_of_stepInside {g : TextFault} {front blank : List Char}
    (h : d.Follows front blank) (hseen : seen = front ++ d.piece.toList ++ blank)
    (ht : t.Writes run) (hbefore : Token.Boundary seen (run ++ after))
    (hafter : Token.Boundary run after)
    (hstep : (stepInside d t (Text.byteLength seen)).result = .error (.text g)) :
    g.PointsInto (seen ++ run ++ after) := by
  have hgoOn {x : Outcome Draft} (hx : (x.toLogged.result.map fun e =>
      (inside e, (none : Option (Item Float)))) = .error (.text g)) :
      x.toLogged.result = .error (.text g) := by
    cases hresult : x.toLogged.result with
    | ok e =>
      rw [hresult] at hx
      cases hx
    | error f =>
      rw [hresult] at hx
      cases hx
      rfl
  have haddText {text : String}
      (hx : (d.addText text (Text.byteLength seen)).toLogged.result = .error (.text g)) :
      g.PointsInto (seen ++ run ++ after) := by
    obtain ⟨g', hg, hpoints⟩ := h.pointsInto_of_addText (run ++ after) hx
    cases hg
    rwa [hseen, List.append_assoc _ run]
  have hsettle {c : Char} (hc : c = ';' ∨ c = ']') (hrun : run = [c])
      (hx : (d.settle (Text.byteLength seen)).toLogged.result = .error (.text g)) :
      g.PointsInto (seen ++ run ++ after) := by
    rw [hseen] at hx ⊢
    obtain ⟨g', hg, hpoints⟩ := h.pointsInto_of_settle after hc hx
    cases hg
    rwa [hrun]
  cases t with
  | digits text =>
    rw [stepInside, result_goOn] at hstep
    exact haddText (hgoOn hstep)
  | minus =>
    rw [stepInside, result_goOn] at hstep
    exact haddText (hgoOn hstep)
  | space => cases hstep
  | rowEnd =>
    rw [stepInside, result_goOn] at hstep
    have hend := hgoOn hstep
    rw [Draft.endRow, Outcome.result_andThen] at hend
    rcases bind_eq_error_iff.1 hend with hx | ⟨e, -, he⟩
    · exact hsettle (.inl rfl) (ht.eq_text (by simp)) hx
    · cases he
  | literalEnd =>
    simp only [stepInside, Logged.result_bind, Draft.close] at hstep
    rcases bind_eq_error_iff.1 hstep with hclose | ⟨⟨shape, values⟩, -, hflat⟩
    · rcases bind_eq_error_iff.1 hclose with hx | ⟨e, -, he⟩
      · exact hsettle (.inr rfl) (ht.eq_text (by simp)) hx
      · cases he
    · -- the constructor of matrices has no faults of the text
      cases hmatrix : DenseMatrix.ofFlat shape.rows shape.cols values <;>
        simp only [hmatrix] at hflat <;> cases hflat
  | word text =>
    simp only [stepInside] at hstep
    cases hword : operatorOf text (Text.byteLength seen) with
    | ok op =>
      simp only [hword] at hstep
      cases hstep
      obtain ⟨u, rfl⟩ := operatorOf_eq_ok hword
      have hrun : run = u.word.toList := ht.eq_text (by simp)
      exact ⟨seen, run, after, rfl, rfl, .inr (.inr ⟨isRun_word ht hbefore hafter, u, hrun⟩)⟩
    | error g' =>
      simp only [hword] at hstep
      cases hstep
      exact pointsInto_of_operatorOf_eq_error ht hbefore hafter hword
  | plus =>
    cases hstep
    exact pointsInto_stray ht ⟨'+', by decide, rfl⟩
  | star =>
    cases hstep
    exact pointsInto_stray ht ⟨'*', by decide, rfl⟩
  | opening =>
    cases hstep
    exact pointsInto_stray ht ⟨'(', by decide, rfl⟩
  | closing =>
    cases hstep
    exact pointsInto_stray ht ⟨')', by decide, rfl⟩
  | literalStart =>
    cases hstep
    exact pointsInto_stray ht ⟨'[', by decide, rfl⟩

/-- A fault of a token is about a part of the text that this token ends or stands in. -/
theorem Follows.pointsInto_of_step (h : r.Follows seen) (ht : t.Writes run)
    (hbefore : Token.Boundary seen (run ++ after)) (hafter : Token.Boundary run after)
    {g : TextFault} (hstep : (r.step t (Text.byteLength seen)).result = .error (.text g)) :
    g.PointsInto (seen ++ run ++ after) := by
  cases r with
  | outside => exact pointsInto_of_stepOutside ht hbefore hafter hstep
  | inside d =>
    obtain ⟨front, blank, hseen, hfollows⟩ := h
    exact pointsInto_of_stepInside hfollows hseen ht hbefore hafter hstep

end Reading

/-! ## §4 Whole texts -/

section Run

variable {pieces : List Token.Piece} {seen : List Char} {r last : Reading} {s t : Stacks Float}

/-- What follows a piece does not run into the text up to its end. -/
theorem Token.IsCut.boundary_append {p : Token.Piece} (h : Token.IsCut (p :: pieces)) :
    Token.Boundary (seen ++ p.run) (pieces.flatMap Token.Piece.run) := by
  intro c hc
  rw [List.getLast?_append_of_ne_nil _ (h.writes p List.mem_cons_self).ne_nil] at hc
  exact h.boundary c hc

/-- Reading follows the text from its pieces on, whatever the stacks do meanwhile. -/
theorem Reading.Follows.of_evaluateTokens (h : r.Follows seen) (hcut : Token.IsCut pieces)
    (hrun : (evaluateTokens (Token.layOut (Text.byteLength seen) pieces) r s).result =
      .ok (last, t)) : last.Follows (seen ++ pieces.flatMap Token.Piece.run) := by
  induction pieces generalizing seen r s with
  | nil =>
    cases hrun
    simpa using h
  | cons p pieces ih =>
    have hp := hcut.writes p List.mem_cons_self
    rw [Token.layOut, evaluateTokens_cons, Logged.result_bind] at hrun
    obtain ⟨⟨next, item?⟩, hstep, hrun⟩ := bind_eq_ok_iff.1 hrun
    have hnext := h.of_step hp hstep
    rw [List.flatMap_cons, ← List.append_assoc]
    rw [← Text.byteLength_append] at hrun
    cases item? with
    | none => exact ih hnext hcut.tail hrun
    | some item =>
      simp only [Logged.result_bind] at hrun
      obtain ⟨fed, -, hrun⟩ := bind_eq_ok_iff.1 hrun
      exact ih hnext hcut.tail hrun

/-- The first fault of the text on the way through its pieces points into it. -/
theorem pointsInto_of_evaluateTokens (h : r.Follows seen) (hcut : Token.IsCut pieces)
    (hseen : Token.Boundary seen (pieces.flatMap Token.Piece.run)) {g : TextFault}
    (hrun : (evaluateTokens (Token.layOut (Text.byteLength seen) pieces) r s).result =
      .error (.text g)) : g.PointsInto (seen ++ pieces.flatMap Token.Piece.run) := by
  induction pieces generalizing seen r s with
  | nil => cases hrun
  | cons p pieces ih =>
    have hp := hcut.writes p List.mem_cons_self
    rw [Token.layOut, evaluateTokens_cons, Logged.result_bind] at hrun
    rw [List.flatMap_cons] at hseen ⊢
    rw [← List.append_assoc]
    rcases bind_eq_error_iff.1 hrun with hstep | ⟨⟨next, item?⟩, hstep, hrun⟩
    · exact h.pointsInto_of_step hp hseen hcut.boundary hstep
    have hnext := h.of_step hp hstep
    rw [← Text.byteLength_append] at hrun
    cases item? with
    | none => exact ih hnext hcut.tail hcut.boundary_append hrun
    | some item =>
      simp only [Logged.result_bind] at hrun
      rcases bind_eq_error_iff.1 hrun with hfeed | ⟨fed, -, hrun⟩
      · exact absurd (Stacks.isOfMove_of_feed hfeed) (Fault.not_isOfMove_text g)
      · exact ih hnext hcut.tail hcut.boundary_append hrun

end Run

/-- Every fault of the text points at the part of the text that it is about, at the number of bytes
before that part. -/
theorem fault_points_into_text {source : String} {f : TextFault}
    (h : (evaluate source).result = .error (.text f)) : f.PointsInto source.toList := by
  cases hlex : Token.lex source with
  | error g =>
    rw [result_evaluate_of_lex_eq_error hlex] at h
    cases h
    obtain ⟨before, c, after, hsource, hbefore, hc, rfl⟩ := Token.lex_eq_error_iff.1 hlex
    exact ⟨before, [c], after, by simp [hsource], rfl, by simp, ⟨c, rfl, hc⟩, hbefore⟩
  | ok placed =>
    obtain ⟨pieces, hcut, htext, rfl⟩ := Token.lex_eq_ok_iff.1 hlex
    have houtside : Reading.outside.Follows [] := rfl
    rw [result_evaluate_of_lex_eq_ok hlex] at h
    obtain hrun | ⟨⟨last, s⟩, hrun, h⟩ := bind_eq_error_iff.1 h
    · rw [← htext]
      exact pointsInto_of_evaluateTokens houtside hcut (fun _ hc => nomatch hc) hrun
    have hlast := houtside.of_evaluateTokens hcut hrun
    rw [List.nil_append, htext] at hlast
    cases last with
    | outside => exact absurd h (s.finish_ne_text f)
    | inside d =>
      -- the literal was never closed, which is noticed at the end of the text
      cases h
      obtain ⟨front, blank, hseen, hfollows⟩ := hlast
      refine ⟨source.toList, [], [], by simp, Text.byteLength_toList source, .inl ⟨rfl, rfl, ?_⟩⟩
      rw [hseen]
      exact hfollows.endsInLiteral

/-- The number that cannot be read began three tokens and two blanks before the row end that makes
it be read. -/
theorem fault_points_into_text_number :
    (evaluate "[1 2] + [3 1-2  ;4]").result = .error (.text ⟨.invalidNumber "1-2", 11⟩) ∧
    TextFault.PointsInto "[1 2] + [3 1-2  ;4]".toList ⟨.invalidNumber "1-2", 11⟩ := by
  have h : (evaluate "[1 2] + [3 1-2  ;4]").result = .error (.text ⟨.invalidNumber "1-2", 11⟩) := by
    decide +kernel
  exact ⟨h, fault_points_into_text h⟩

end MatrixCalc
