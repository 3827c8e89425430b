import MatrixCalc.Proofs.Session.Arguments
import MatrixCalc.Proofs.Session.Replies

/-!
# What the program answers

A session stops at the first of its lines that is the quit command or no text (`Session.Cut`). What
it writes are the replies to the lines before that, each made from its own line only, and its status
tells whether it stopped at what is no text (`Session.report_of_cut`). An expression among the
arguments has the reply that a session would write about it, but the sentence of a fault is written
apart from the output (`Request.report_of_source`). There the lines about the notes are written as
well, which come from the same lines of the input as the replies do.

Main statement: `Session.answers_each_line`.

§1 where a session stops · §2 what it writes · §3 one expression · §4 the program
-/

namespace MatrixCalc

namespace Session

/-! ## §1 Where a session stops -/

/-- There is no line, or the first one is the quit command or no text. -/
def Stops (rest : List (List UInt8)) : Prop :=
  ∀ line ∈ rest.head?, ∀ text, line = bytesOf text → IsQuitCommand text

/-- There is no line, or the first one is text. -/
def StopsInText (rest : List (List UInt8)) : Prop :=
  ∀ line ∈ rest.head?, ∃ text, line = bytesOf text

/-- The lines of an input: some of text, none of which is the quit command, and the rest from the
first line on that is the quit command or no text. -/
structure Cut (input : List UInt8) (texts : List String) (rest : List (List UInt8)) : Prop where
  isLines : IsLines input (texts.map bytesOf ++ rest)
  goesOn : ∀ text ∈ texts, ¬ IsQuitCommand text
  stops : Stops rest

variable {input : List UInt8} {texts texts' : List String} {rest rest' : List (List UInt8)}

theorem exists_cut (input : List UInt8) : ∃ texts rest, Cut input texts rest := by
  suffices h : ∀ ls : List (List UInt8), ∃ (texts : List String) (rest : List (List UInt8)),
      ls = texts.map bytesOf ++ rest ∧ (∀ text ∈ texts, ¬ IsQuitCommand text) ∧ Stops rest by
    obtain ⟨texts, rest, hlines, hgoesOn, hstops⟩ := h (Session.lines input)
    exact ⟨texts, rest, hlines ▸ isLines_lines input, hgoesOn, hstops⟩
  intro ls
  induction ls with
  | nil => exact ⟨[], [], rfl, by simp, by simp [Stops]⟩
  | cons line ls ih =>
    by_cases hline : ∃ text, line = bytesOf text ∧ ¬ IsQuitCommand text
    · obtain ⟨text, rfl, hquit⟩ := hline
      obtain ⟨texts, rest, rfl, hgoesOn, hstops⟩ := ih
      exact ⟨text :: texts, rest, rfl, List.forall_mem_cons.2 ⟨hquit, hgoesOn⟩, hstops⟩
    · refine ⟨[], line :: ls, rfl, by simp, fun stop hstop text htext => ?_⟩
      obtain rfl : line = stop := Option.some.inj hstop
      exact not_not.1 fun hquit => hline ⟨text, htext, hquit⟩

theorem Cut.unique (h : Cut input texts rest) (h' : Cut input texts' rest') :
    texts' = texts ∧ rest' = rest := by
  have hlines : texts'.map bytesOf ++ rest' = texts.map bytesOf ++ rest :=
    (isLines_iff.1 h'.isLines).symm.trans (isLines_iff.1 h.isLines)
  obtain ⟨-, hgoesOn, hstops⟩ := h
  obtain ⟨-, hgoesOn', hstops'⟩ := h'
  -- one of them cannot go on where the other stops
  induction texts generalizing texts' with
  | nil =>
    cases texts' with
    | nil => exact ⟨rfl, hlines⟩
    | cons text texts' =>
      subst hlines
      exact absurd (hstops (bytesOf text) rfl text rfl) (hgoesOn' text List.mem_cons_self)
  | cons text texts ih =>
    cases texts' with
    | nil =>
      subst hlines
      exact absurd (hstops' (bytesOf text) rfl text rfl) (hgoesOn text List.mem_cons_self)
    | cons text' texts' =>
      obtain ⟨hhead, htail⟩ := List.cons.inj hlines
      obtain rfl := bytesOf_injective hhead
      obtain ⟨rfl, rfl⟩ := ih htail (List.forall_mem_cons.1 hgoesOn).2
        (List.forall_mem_cons.1 hgoesOn').2
      exact ⟨rfl, rfl⟩

/-! ## §2 What it writes -/

/-- Lines of text are answered one after the other. -/
theorem transcript_texts (style : Style) (htexts : ∀ text ∈ texts, ¬ IsQuitCommand text)
    (rest : List (List UInt8)) :
    String.join (transcript style (texts.map bytesOf ++ rest)).output =
        String.join (texts.map (reply style)) ++ String.join (transcript style rest).output ∧
      (transcript style (texts.map bytesOf ++ rest)).notes =
        texts.flatMap remarks ++ (transcript style rest).notes ∧
      (transcript style (texts.map bytesOf ++ rest)).decodable =
        (transcript style rest).decodable := by
  induction texts with
  | nil => exact ⟨by simp, rfl, rfl⟩
  | cons text texts ih =>
    obtain ⟨hquit, htexts⟩ := List.forall_mem_cons.1 htexts
    obtain ⟨houtput, hnotes, hdecodable⟩ := ih htexts
    rw [List.map_cons, List.cons_append, transcript, answer_bytesOf,
      if_neg (mt isQuit_iff.1 hquit), List.map_cons, String.join_cons]
    by_cases hblank : IsBlankText text
    · -- no answer and an empty one are the same once all are joined
      rw [if_pos hblank, reply, if_pos hblank, String.empty_append, List.flatMap_cons, remarks,
        if_pos hblank]
      exact ⟨houtput, hnotes, hdecodable⟩
    · rw [if_neg hblank]
      refine ⟨?_, ?_, hdecodable⟩
      · rw [Transcript.output_after, String.join_cons, houtput, String.append_assoc]
      · rw [Transcript.notes_after, hnotes, List.flatMap_cons, List.append_assoc]

/-- A session that stops writes nothing more. -/
theorem transcript_rest (style : Style) (hrest : Stops rest) :
    (transcript style rest).output = [] ∧ (transcript style rest).notes = [] ∧
      ((transcript style rest).decodable = true ↔ StopsInText rest) := by
  cases rest with
  | nil => simp [transcript, StopsInText]
  | cons line rest =>
    by_cases htext : ∃ text, line = bytesOf text
    · obtain ⟨text, rfl⟩ := htext
      have hquit := hrest (bytesOf text) rfl text rfl
      rw [transcript, answer_bytesOf, if_pos (isQuit_iff.2 hquit)]
      exact ⟨rfl, rfl, iff_of_true rfl fun stop hstop => ⟨text, (Option.some.inj hstop).symm⟩⟩
    · rw [transcript, answer_of_forall_ne fun text h => htext ⟨text, h⟩]
      exact ⟨rfl, rfl, iff_of_false Bool.false_ne_true fun h => htext (h line rfl)⟩

/-- The report on a session: the replies to the lines before the stop, the lines about the notes on
them, and the status and the sentence of what it stopped at. -/
theorem report_of_cut (h : Cut input texts rest) (console : Console) {style : Style}
    {arguments : List String} (hasks : Request.Asks arguments style none) :
    (StopsInText rest →
      (Request.ofArguments arguments).report input console =
        ⟨0, String.join (texts.map (reply style)), console.log (texts.flatMap remarks)⟩) ∧
    (¬ StopsInText rest →
      (Request.ofArguments arguments).report input console =
        ⟨1, String.join (texts.map (reply style)),
          console.log (texts.flatMap remarks) ++ (undecodableMessage ++ "\n")⟩) := by
  obtain ⟨houtput, hnotes, hdecodable⟩ := transcript_texts style h.goesOn rest
  obtain ⟨hnothing, hsilent, hstop⟩ := transcript_rest style h.stops
  rw [hnothing, String.join_nil, String.append_empty] at houtput
  rw [hsilent, List.append_nil] at hnotes
  rw [← hstop, ← hdecodable, Request.ofArguments_eq_iff.2 hasks]
  show (_ → Request.reportSession console style input = _) ∧
    (_ → Request.reportSession console style input = _)
  rw [Request.reportSession, isLines_iff.1 h.isLines, houtput, hnotes]
  constructor
  · intro htext
    rw [htext, errorText, if_pos rfl, String.append_empty]
    rfl
  · intro htext
    rw [Bool.eq_false_iff.2 htext]
    rfl

end Session

/-! ## §3 One expression -/

namespace Request

variable {style : Style} {source : String} {arguments : List String}

theorem report_of_source (hblank : ¬ Session.IsBlankText source) (console : Console)
    (input : List UInt8) (hasks : Asks arguments style (some source)) :
    (∀ written, (evaluateToText style source).result = .ok written →
      (ofArguments arguments).report input console =
        ⟨0, Session.reply style source, console.log (Session.remarks source)⟩) ∧
    (∀ f, (evaluateToText style source).result = .error f →
      (ofArguments arguments).report input console =
        ⟨1, "", console.log (Session.remarks source) ++ (f.message ++ "\n")⟩) := by
  rw [ofArguments_eq_iff.2 hasks, Session.remarks_of_not_blank style hblank]
  show (∀ written, _ → reportExpression console style source = _) ∧
    ∀ f, _ → reportExpression console style source = _
  constructor
  · intro written h
    rw [Session.reply_of_ok hblank h]
    simp only [reportExpression, h]
  · intro f h
    simp only [reportExpression, h]

end Request

/-! ## §4 The program -/

namespace Session

/-- Without an expression among its arguments the program answers the lines of its input, up to the
first that is the quit command or no text, each on its own: nothing for blanks, and otherwise the
value or the sentence of the fault, with one line break at the end. It fails only at what is no
text, and what was written before remains; in which pieces the input comes makes no difference. With
an expression it writes what it would answer to a line of that text, and fails if that is a fault.

To the other output go the lines that the console writes about the notes on these replies, and then
the sentence of what it fails at. -/
theorem answers_each_line (style : Style) (console : Console) :
    (∀ arguments source?, Request.ofArguments arguments = Request.answering style source? ↔
      Request.Asks arguments style source?) ∧
    (∀ input : List UInt8, ∃ texts rest, Cut input texts rest ∧
      (∀ texts' rest', Cut input texts' rest' → texts' = texts ∧ rest' = rest) ∧
      (∀ text ∈ texts, ¬ IsBlankText text → EndsInOneBreak (reply style text)) ∧
      (∀ arguments, Request.Asks arguments style none →
        (StopsInText rest →
          (Request.ofArguments arguments).report input console =
            ⟨0, String.join (texts.map (reply style)), console.log (texts.flatMap remarks)⟩) ∧
        (¬ StopsInText rest →
          (Request.ofArguments arguments).report input console =
            ⟨1, String.join (texts.map (reply style)),
              console.log (texts.flatMap remarks) ++ (undecodableMessage ++ "\n")⟩)) ∧
      ∀ pieces : List (List UInt8), pieces.flatten = input →
        transcriptOver style [] pieces = transcript style (lines input)) ∧
    ∀ source : String, '\n' ∉ source.toList → ¬ IsBlankText source → ¬ IsQuitCommand source →
      (∀ arguments input, Request.Asks arguments style (some source) →
        (∀ written, (evaluateToText style source).result = .ok written →
          (Request.ofArguments arguments).report input console =
            ⟨0, reply style source, console.log (remarks source)⟩) ∧
        ∀ f, (evaluateToText style source).result = .error f →
          (Request.ofArguments arguments).report input console =
            ⟨1, "", console.log (remarks source) ++ (f.message ++ "\n")⟩) ∧
      IsLines (bytesOf source) [bytesOf source] ∧
      ∀ arguments input, Request.Asks arguments style none → IsLines input [bytesOf source] →
        (Request.ofArguments arguments).report input console =
          ⟨0, reply style source, console.log (remarks source)⟩ := by
  refine ⟨fun arguments source? => Request.ofArguments_eq_iff, fun input => ?_,
    fun source hbreak hblank hquit => ⟨fun arguments input hasks =>
      Request.report_of_source hblank console input hasks, isLines_bytesOf ?_ hbreak,
      fun arguments input hasks hlines => ?_⟩⟩
  · obtain ⟨texts, rest, hcut⟩ := exists_cut input
    refine ⟨texts, rest, hcut, fun texts' rest' => hcut.unique, fun text _ =>
      endsInOneBreak_reply, fun arguments hasks => report_of_cut hcut console hasks, ?_⟩
    rintro pieces rfl
    exact transcriptOver_eq style [] pieces
  · rintro rfl
    exact hblank (by simp [IsBlankText])
  · have hcut : Cut input [source] [] := ⟨hlines, by simpa using hquit, by simp [Stops]⟩
    simpa [String.join_cons] using (report_of_cut hcut console hasks).1 (by simp [StopsInText])

/-- A value with a warning, a blank line and a fault before the quit command; bytes that are no text
after a value; and expressions among the arguments, the last of them with a warning and a fault. -/
theorem answers_each_line_cut :
    let console := Console.warnings "" ""
    (Request.ofArguments ["-b"]).report (bytesOf "inverse([0])\r\n \n[1 2;3]\n^q\n[9]\n")
        console =
      ⟨0, "[ 1.0 ]\nMatrix has inconsistent size: expected 2 values per row, " ++
        "found 1 (column 6).\n", "[WARN] inverse requested for a singular 1x1 matrix\n"⟩ ∧
    (Request.ofArguments ["brackets"]).report (bytesOf "[1]\n" ++ 255 :: bytesOf "\n[2]\n")
        console =
      ⟨1, "[ 1.0 ]\n", undecodableMessage ++ "\n"⟩ ∧
    (Request.ofArguments ["-b", "--", "[1]+[2]"]).report [] console = ⟨0, "[ 3.0 ]\n", ""⟩ ∧
    (Request.ofArguments ["inverse[0]+", "--brackets"]).report [] console =
      ⟨1, "", "[WARN] inverse requested for a singular 1x1 matrix\n" ++
        "Invalid expression: '+' is missing an operand.\n"⟩ := by
  intro console
  obtain ⟨-, hsessions, hsources⟩ := answers_each_line .bracketed console
  have hgoesOn (texts : List String) (h : texts.any isQuit = false) :
      ∀ text ∈ texts, ¬ IsQuitCommand text := fun text htext hquit =>
    Bool.eq_false_iff.1 h (List.any_eq_true.2 ⟨text, htext, isQuit_iff.2 hquit⟩)
  refine ⟨?_, ?_, ?_, ?_⟩
  · obtain ⟨texts, rest, -, hunique, -, hreport, -⟩ :=
      hsessions (bytesOf "inverse([0])\r\n \n[1 2;3]\n^q\n[9]\n")
    have hquit : IsQuitCommand "^q" := isQuit_iff.1 (by decide +kernel)
    obtain ⟨rfl, rfl⟩ := hunique ["inverse([0])", " ", "[1 2;3]"] [bytesOf "^q", bytesOf "[9]"] {
      isLines := isLines_iff.2 (by decide +kernel)
      goesOn := hgoesOn _ (by decide +kernel)
      stops := fun line hline text htext => by
        obtain rfl := bytesOf_injective ((Option.some.inj hline).trans htext)
        exact hquit }
    have hasks : Request.Asks ["-b"] .bracketed none :=
      ⟨true, none, .flag (.inl rfl) .nothing, rfl, rfl⟩
    refine ((hreport ["-b"] hasks).1 fun line hline => ⟨"^q", ?_⟩).trans (by decide +kernel)
    exact (Option.some.inj hline).symm
  · obtain ⟨texts, rest, -, hunique, -, hreport, -⟩ :=
      hsessions (bytesOf "[1]\n" ++ 255 :: bytesOf "\n[2]\n")
    have hnone (text : String) : [255] ≠ bytesOf text := fun h => by
      cases (show String.fromUTF8? ⟨#[255]⟩ = none by decide +kernel).symm.trans
        (fromUTF8?_eq_some_iff.2 h)
    obtain ⟨rfl, rfl⟩ := hunique ["[1]"] [[255], bytesOf "[2]"] {
      isLines := isLines_iff.2 (by decide +kernel)
      goesOn := hgoesOn _ (by decide +kernel)
      stops := fun line hline text htext =>
        absurd ((Option.some.inj hline).trans htext) (hnone text) }
    have hasks : Request.Asks ["brackets"] .bracketed none :=
      ⟨false, some "brackets", .source (.inl (by decide)) .nothing, rfl, rfl⟩
    refine ((hreport ["brackets"] hasks).2 fun h => ?_).trans (by decide +kernel)
    obtain ⟨text, htext⟩ := h [255] rfl
    exact hnone text htext
  · have hasks : Request.Asks ["-b", "--", "[1]+[2]"] .bracketed (some "[1]+[2]") :=
      ⟨true, some "[1]+[2]", .flag (.inl rfl) (.dashesSource "[1]+[2]"), rfl, rfl⟩
    refine (((hsources "[1]+[2]" (by decide) (by decide +kernel) ?_).1 _ [] hasks).1
      "[ 3.0 ]" (by decide +kernel)).trans (by decide +kernel)
    exact hgoesOn ["[1]+[2]"] (by decide +kernel) _ List.mem_cons_self
  · have hasks : Request.Asks ["inverse[0]+", "--brackets"] .bracketed (some "inverse[0]+") :=
      ⟨true, some "inverse[0]+", .source (.inl (by decide)) (.flag (.inr rfl) .nothing), rfl, rfl⟩
    refine (((hsources "inverse[0]+" (by decide) (by decide +kernel) ?_).1 _ [] hasks).2
      (.calculation (.missingOperand (.binary .plus))) (by decide +kernel)).trans
      (by decide +kernel)
    exact hgoesOn ["inverse[0]+"] (by decide +kernel) _ List.mem_cons_self

end Session

end MatrixCalc
