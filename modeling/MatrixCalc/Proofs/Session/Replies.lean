import MatrixCalc.Proofs.Session.Lines
import MatrixCalc.Proofs.Text.Faithful
import MatrixCalc.Proofs.Text.Journals

/-!
# Replies

What a session writes about one line of text (`Session.reply`): nothing about blanks, and otherwise
the text of the value or the sentence of the fault. The plain text of a value has a line break after
each of its rows, the bracketed text and the sentences have none at their ends; so one is written
after these only, and each reply ends in exactly one (`Session.endsInOneBreak_reply`). The notes
on a reply (`Session.remarks`) are those of the evaluation.

§1 bytes and characters · §2 blanks around a text · §3 values · §4 line breaks · §5 replies ·
§6 the session's answers
-/

namespace MatrixCalc

namespace Session

/-! ## §1 Bytes and characters -/

def bytesOf (text : String) : List UInt8 := text.toUTF8.data.toList

theorem fromUTF8?_eq_some_iff {line : List UInt8} {text : String} :
    String.fromUTF8? ⟨line.toArray⟩ = some text ↔ line = bytesOf text := by
  unfold String.fromUTF8? bytesOf
  constructor
  · intro h
    split at h
    · cases h
      rfl
    · cases h
  · rintro rfl
    exact dif_pos text.isValidUTF8

/-- Text and no text are told apart by their bytes, and so are two texts. -/
theorem bytesOf_injective : Function.Injective bytesOf := fun _ _ h =>
  Option.some_inj.1 ((fromUTF8?_eq_some_iff.2 rfl).symm.trans (fromUTF8?_eq_some_iff.2 h))

theorem bytesOf_eq (text : String) : bytesOf text = text.toList.flatMap String.utf8EncodeChar := by
  rw [bytesOf, String.toUTF8_eq_toByteArray, ← String.utf8Encode_toList, List.utf8Encode]
  simp

/-- Only a line break has the byte of a line feed in it. -/
theorem eq_of_lineFeed_mem {c : Char} (h : lineFeed ∈ String.utf8EncodeChar c) : c = '\n' := by
  -- all bytes of a sequence of several have their highest bit set
  have hhigh {n : Nat} (hlow : 128 ≤ n) (hn : n < 256) : lineFeed ≠ UInt8.ofNat n := fun heq => by
    have hnat : 10 = n % 256 := congrArg UInt8.toNat heq
    omega
  simp only [String.utf8EncodeChar] at h
  split at h
  · have hnat : 10 = c.val.toNat % 256 := congrArg UInt8.toNat (List.mem_singleton.1 h)
    have hten : c.val.toNat = 10 := by omega
    exact Char.ext (UInt32.toNat_inj.1 hten)
  split at h
  · simp (disch := omega) only [List.mem_cons, List.not_mem_nil, hhigh, or_self] at h
  split at h
  · simp (disch := omega) only [List.mem_cons, List.not_mem_nil, hhigh, or_self] at h
  · simp (disch := omega) only [List.mem_cons, List.not_mem_nil, hhigh, or_self] at h

theorem isLines_bytesOf {text : String} (hne : text ≠ "") (hbreak : '\n' ∉ text.toList) :
    IsLines (bytesOf text) [bytesOf text] := by
  refine .last (fun hnil => hne (bytesOf_injective hnil)) fun hfeed => hbreak ?_
  rw [bytesOf_eq] at hfeed
  obtain ⟨c, hc, hmem⟩ := List.mem_flatMap.1 hfeed
  exact eq_of_lineFeed_mem hmem ▸ hc

/-! ## §2 Blanks around a text -/

/-- A text with blanks before and after it, or with none. -/
def IsPadded (body cs : List Char) : Prop :=
  ∃ before after, cs = before ++ body ++ after ∧ (∀ c ∈ before, Text.isBlank c = true) ∧
    ∀ c ∈ after, Text.isBlank c = true

theorem isPadded_trim (cs : List Char) : IsPadded (Text.trim cs) cs := by
  refine ⟨cs.takeWhile Text.isBlank, (cs.dropWhile Text.isBlank).rtakeWhile Text.isBlank, ?_,
    fun c hc => List.mem_takeWhile_imp hc, fun c hc => List.mem_rtakeWhile_imp hc⟩
  calc
    cs = cs.takeWhile Text.isBlank ++ cs.dropWhile Text.isBlank :=
      List.takeWhile_append_dropWhile.symm
    _ = cs.takeWhile Text.isBlank ++
        (Text.trim cs ++ (cs.dropWhile Text.isBlank).rtakeWhile Text.isBlank) :=
      congrArg _ List.rdropWhile_append_rtakeWhile.symm
    _ = _ := (List.append_assoc _ _ _).symm

/-- A text that neither begins nor ends with a blank is what is left of it with blanks around it. -/
theorem trim_of_isPadded {body cs : List Char} (hhead : ∀ c ∈ body.head?, Text.isBlank c = false)
    (hlast : ∀ c ∈ body.getLast?, Text.isBlank c = false) (h : IsPadded body cs) :
    Text.trim cs = body := by
  obtain ⟨before, after, rfl, hbefore, hafter⟩ := h
  rw [List.append_assoc, Text.trim, List.dropWhile_append_of_pos hbefore]
  cases body with
  | nil => simp [List.dropWhile_eq_nil_iff.2 hafter]
  | cons c body =>
    have hc : Text.isBlank c = false := hhead c rfl
    rw [List.cons_append, List.dropWhile_cons_of_neg (by simp [hc]), ← List.cons_append,
      List.reverse_append, List.dropWhile_append_of_pos (by simpa using hafter)]
    cases hreverse : (c :: body).reverse with
    | nil => simp at hreverse
    | cons d rest =>
      have hend : (c :: body).getLast? = some d := by
        rw [← List.head?_reverse, hreverse]
        rfl
      rw [List.dropWhile_cons_of_neg (by simp [hlast d hend]), ← hreverse, List.reverse_reverse]

def IsBlankText (text : String) : Prop := ∀ c ∈ text.toList, Text.isBlank c = true

instance (text : String) : Decidable (IsBlankText text) :=
  List.decidableBAll (fun c => Text.isBlank c = true) text.toList

theorem isEmpty_trim_iff {text : String} :
    (Text.trim text.toList).isEmpty = true ↔ IsBlankText text := by
  rw [List.isEmpty_iff]
  constructor
  · intro hnil
    obtain ⟨before, after, hchars, hbefore, hafter⟩ := isPadded_trim text.toList
    rw [IsBlankText, hchars, hnil, List.append_nil]
    exact List.forall_mem_append.2 ⟨hbefore, hafter⟩
  · intro hblank
    exact trim_of_isPadded (by simp) (by simp) ⟨text.toList, [], by simp, hblank, by simp⟩

/-- A caret and the letter Q of either case, with blanks around them or without. -/
def IsQuitCommand (text : String) : Prop :=
  IsPadded ['^', 'Q'] text.toList ∨ IsPadded ['^', 'q'] text.toList

theorem isQuit_iff {text : String} : isQuit text = true ↔ IsQuitCommand text := by
  have htrim (letter : Char) (hletter : Text.isBlank letter = false) :
      Text.trim text.toList = ['^', letter] ↔ IsPadded ['^', letter] text.toList := by
    refine ⟨fun h => h ▸ isPadded_trim text.toList, trim_of_isPadded ?_ ?_⟩
    · simpa using (by decide : Text.isBlank '^' = false)
    · simpa using hletter
  simp only [isQuit, Bool.or_eq_true, beq_iff_eq]
  exact or_congr (htrim 'Q' (by decide)) (htrim 'q' (by decide))

end Session

/-! ## §3 Values -/

/-- The stacks that items leave are sound, also if one of them fails. -/
theorem Stacks.keeps_feedAll {α : Type} [Scalar α] {items : List (Item α)}
    (hitems : ∀ item ∈ items, item.IsWellFormed) {s : Stacks α} (hs : s.Sound) :
    (s.feedAll items).Keeps Sound := by
  induction items generalizing s with
  | nil => exact Outcome.keeps_done hs []
  | cons item items ih =>
    obtain ⟨hitem, hitems⟩ := List.forall_mem_cons.1 hitems
    exact (keeps_feed hitem hs).andThen fun t ht => ih hitems ht

/-- The value of a text is a matrix with rows and columns and an entry for each place. -/
theorem wellFormed_of_evaluate {source : String} {a : DenseMatrix Float}
    (h : (evaluate source).result = .ok a) : a.WellFormed := by
  obtain ⟨items, -, -, hvalue, hread, -⟩ := exists_journal h
  have hitems : ∀ item ∈ items, item.IsWellFormed := fun item hitem b hb =>
    (hread item hitem b hb).1
  rw [evaluateItems, Logged.result_bind] at hvalue
  have hfed := (Stacks.keeps_feedAll hitems Stacks.sound_empty).safe
  exact (hfed.bind fun s hs => Stacks.safe_finish hs).of_ok hvalue

namespace Session

/-! ## §4 Line breaks -/

/-- A text with a line break at its end and none right before that. -/
def EndsInOneBreak (text : String) : Prop :=
  ∃ body : String, text = body ++ "\n" ∧ body.toList.getLast? ≠ some '\n'

theorem endsWith_break_iff {text : String} :
    text.endsWith "\n" = true ↔ text.toList.getLast? = some '\n' := by
  rw [String.endsWith_eq_endsWith_toSlice, String.Slice.endsWith_string_iff, String.copy_toSlice,
    List.getLast?_eq_some_iff]
  exact ⟨fun ⟨before, h⟩ => ⟨before, h.symm⟩, fun ⟨before, h⟩ => ⟨before, h.symm⟩⟩

theorem asLines_of_endsInOneBreak {text : String} (h : EndsInOneBreak text) :
    asLines text = text := by
  obtain ⟨body, rfl, -⟩ := h
  have hlast : (body ++ "\n").toList.getLast? = some '\n' := by
    rw [String.toList_append]
    exact List.getLast?_concat
  exact if_pos (endsWith_break_iff.2 hlast)

theorem asLines_of_getLast?_ne {text : String} (h : text.toList.getLast? ≠ some '\n') :
    asLines text = text ++ "\n" :=
  if_neg fun hbreak => h (endsWith_break_iff.1 hbreak)

theorem endsInOneBreak_append {text : String} (h : text.toList.getLast? ≠ some '\n') :
    EndsInOneBreak (text ++ "\n") := ⟨text, rfl, h⟩

theorem getLast?_append_point {text more : String} (h : more.toList.getLast? = some '.') :
    (text ++ more).toList.getLast? = some '.' := by
  rw [String.toList_append, List.getLast?_append, h]
  rfl

theorem getLast?_message (f : Fault) : f.message.toList.getLast? = some '.' := by
  have hpoint : ".".toList.getLast? = some '.' := by decide +kernel
  obtain ⟨cause, column⟩ | f := f
  · cases cause with
    | unevenRow expected found =>
      exact getLast?_append_point (getLast?_append_point (by decide +kernel))
    | unknownWord word => exact getLast?_append_point (by decide +kernel)
    | _ => exact getLast?_append_point hpoint
  · cases f with
    | unfitOperands op left right => exact getLast?_append_point (getLast?_append_point hpoint)
    | raggedRows row expected found => exact getLast?_append_point (getLast?_append_point hpoint)
    | emptyMatrix => decide +kernel
    | unbalancedBrackets => decide +kernel
    | emptyExpression => decide +kernel
    | _ => exact getLast?_append_point (by decide +kernel)

/-- The last row of a plain text is not empty, and the line break after it is the only one there. -/
theorem endsInOneBreak_plain {a : DenseMatrix Float} (ha : a.WellFormed) :
    EndsInOneBreak (a.text .plain) := by
  have hrows := DenseMatrix.isPlainRows_entryChars ha
  obtain ⟨init, line, hlines⟩ :=
    (List.eq_nil_or_concat (spacedRows a.entryChars)).resolve_left hrows.spacedRows_ne_nil
  have hline : line ∈ spacedRows a.entryChars := by simp [hlines]
  have hne : line ≠ [] := hrows.ne_nil_of_mem_spacedRows line hline
  have hbreak : '\n' ∉ line := hrows.notMem_spacedRows (by decide) rfl rfl line hline
  refine ⟨String.ofList (init.flatMap (· ++ ['\n']) ++ line), ?_, fun hlast => hbreak ?_⟩
  · rw [← String.toList_inj, DenseMatrix.toList_text_plain, hlines]
    simp
  · rw [String.toList_ofList, List.getLast?_append_of_ne_nil _ hne] at hlast
    exact List.mem_of_getLast? hlast

theorem getLast?_bracketed (a : DenseMatrix Float) :
    (a.text .bracketed).toList.getLast? = some ']' := by
  rw [DenseMatrix.text, String.toList_append, List.getLast?_append]
  rfl

/-! ## §5 Replies -/

/-- What a session writes about a text that is no quit command. Plain text of a value brings its
line break with it. -/
def reply (style : Style) (text : String) : String :=
  if IsBlankText text then ""
  else match (evaluateToText style text).result with
    | .ok written => written ++ if style = .plain then "" else "\n"
    | .error f => f.message ++ "\n"

def remarks (text : String) : List Note := if IsBlankText text then [] else (evaluate text).notes

variable {style : Style} {text written : String}

/-- Writing a value leaves no notes. -/
theorem remarks_of_not_blank (style : Style) (hblank : ¬ IsBlankText text) :
    remarks text = (evaluateToText style text).notes := by
  rw [remarks, if_neg hblank]
  show _ = (Logged.bind (evaluate text) fun a => pure (a.text style)).notes
  unfold Logged.bind
  split
  · rfl
  · exact (List.append_nil _).symm

/-- The text of a value and its line break. -/
theorem asLines_of_value (h : (evaluateToText style text).result = .ok written) :
    asLines written = written ++ (if style = .plain then "" else "\n") ∧
      EndsInOneBreak (asLines written) := by
  rw [evaluateToText, Logged.result_bind] at h
  obtain ⟨a, ha, hwritten⟩ := bind_eq_ok_iff.1 h
  obtain rfl : a.text style = written := Except.ok.inj hwritten
  cases style with
  | plain =>
    have hplain := endsInOneBreak_plain (wellFormed_of_evaluate ha)
    rw [asLines_of_endsInOneBreak hplain, if_pos rfl, String.append_empty]
    exact ⟨rfl, hplain⟩
  | bracketed =>
    have hlast : (a.text .bracketed).toList.getLast? ≠ some '\n' := by
      rw [getLast?_bracketed]
      decide
    rw [asLines_of_getLast?_ne hlast, if_neg (by decide)]
    exact ⟨rfl, endsInOneBreak_append hlast⟩

theorem reply_of_ok (hblank : ¬ IsBlankText text)
    (h : (evaluateToText style text).result = .ok written) :
    reply style text = asLines written := by
  rw [reply, if_neg hblank, h, (asLines_of_value h).1]

theorem reply_of_error {f : Fault} (hblank : ¬ IsBlankText text)
    (h : (evaluateToText style text).result = .error f) :
    reply style text = f.message ++ "\n" := by
  rw [reply, if_neg hblank, h]

/-- Every text of more than blanks has a reply, with one line break at its end. -/
theorem endsInOneBreak_reply (hblank : ¬ IsBlankText text) :
    EndsInOneBreak (reply style text) := by
  cases h : (evaluateToText style text).result with
  | ok written =>
    rw [reply_of_ok hblank h]
    exact (asLines_of_value h).2
  | error f =>
    rw [reply_of_error hblank h]
    refine endsInOneBreak_append ?_
    rw [getLast?_message]
    decide

/-! ## §6 The session's answers -/

/-- A line of text is answered with its reply, unless it is blank or the quit command. -/
theorem answer_bytesOf (style : Style) (text : String) :
    answer style (bytesOf text) =
      if isQuit text then .quit
      else if IsBlankText text then .pass
      else .write (reply style text) (remarks text) := by
  rw [answer, fromUTF8?_eq_some_iff.2 rfl]
  show answerText style text = _
  rw [answerText]
  by_cases hblank : IsBlankText text
  · rw [if_pos hblank, if_pos (isEmpty_trim_iff.2 hblank)]
  · rw [if_neg hblank, if_neg (mt isEmpty_trim_iff.1 hblank), remarks_of_not_blank style hblank]
    cases h : (evaluateToText style text).result with
    | ok written =>
      rw [reply_of_ok hblank h]
      simp only [h]
    | error f =>
      rw [reply_of_error hblank h]
      simp only [h]

theorem answer_of_forall_ne {line : List UInt8} (h : ∀ text, line ≠ bytesOf text) :
    answer style line = .undecodable := by
  cases htext : String.fromUTF8? ⟨line.toArray⟩ with
  | none => rw [answer, htext]
  | some text => exact absurd (fromUTF8?_eq_some_iff.1 htext) (h text)

end Session

end MatrixCalc
