import Mathlib.Data.List.TakeWhile
import MatrixCalc.Session

/-!
# The lines of a session

`IsLines` says which lines some bytes are: a line ends with a line feed, or with a carriage return
and a line feed, and only what is left at the end of the bytes is a line without an end. The session
cuts its input into exactly these lines (`isLines_iff`). It does so as the bytes come in, and it
makes no difference in which pieces they come (`transcriptOver_eq`).

§1 what the lines are · §2 cutting lines off · §3 input in pieces
-/

namespace MatrixCalc

namespace Session

/-! ## §1 What the lines are -/

/-- Some bytes are some lines with their ends. -/
inductive IsLines : List UInt8 → List (List UInt8) → Prop where
  /-- No bytes are no line. -/
  | none : IsLines [] []
  /-- The last line has no end, and then it is not empty. -/
  | last {line : List UInt8} (hne : line ≠ []) (hline : lineFeed ∉ line) : IsLines line [line]
  /-- A line that ends with a line feed only. -/
  | feed {line rest : List UInt8} {ls : List (List UInt8)} (hline : lineFeed ∉ line)
      (hreturn : line.getLast? ≠ some carriageReturn) (h : IsLines rest ls) :
      IsLines (line ++ lineFeed :: rest) (line :: ls)
  /-- A line that ends with a carriage return and a line feed. -/
  | returnFeed {line rest : List UInt8} {ls : List (List UInt8)} (hline : lineFeed ∉ line)
      (h : IsLines rest ls) :
      IsLines (line ++ carriageReturn :: lineFeed :: rest) (line :: ls)

/-! ## §2 Cutting lines off -/

variable {line rest bytes : List UInt8} {ls : List (List UInt8)}

theorem stripReturn_of_ne (h : line.getLast? ≠ some carriageReturn) : stripReturn line = line :=
  if_neg h

theorem stripReturn_append (line : List UInt8) :
    stripReturn (line ++ [carriageReturn]) = line := by
  rw [stripReturn, if_pos List.getLast?_concat, List.dropLast_concat]

/-- A line ends with a carriage return, which is dropped, or it stays as it is. -/
theorem stripReturn_cases (line : List UInt8) :
    line.getLast? ≠ some carriageReturn ∧ stripReturn line = line ∨
      line = stripReturn line ++ [carriageReturn] := by
  by_cases h : line.getLast? = some carriageReturn
  · obtain ⟨before, rfl⟩ := List.getLast?_eq_some_iff.1 h
    rw [stripReturn_append]
    exact .inr rfl
  · exact .inl ⟨h, stripReturn_of_ne h⟩

theorem cutLine_feed (hline : lineFeed ∉ line) (rest : List UInt8) :
    cutLine (line ++ lineFeed :: rest) = (stripReturn line, rest) := by
  have hall : ∀ b ∈ line, (b != lineFeed) = true := fun b hb =>
    bne_iff_ne.2 fun heq => hline (heq ▸ hb)
  have htake : (line ++ lineFeed :: rest).takeWhile (· != lineFeed) = line := by
    rw [List.takeWhile_append_of_pos hall]
    simp
  have hdrop : (line ++ lineFeed :: rest).dropWhile (· != lineFeed) = lineFeed :: rest := by
    rw [List.dropWhile_append_of_pos hall]
    simp
  rw [cutLine, htake, hdrop]

theorem cutLine_last (hline : lineFeed ∉ line) : cutLine line = (line, []) := by
  have hall : ∀ b ∈ line, (b != lineFeed) = true := fun b hb =>
    bne_iff_ne.2 fun heq => hline (heq ▸ hb)
  rw [cutLine, List.takeWhile_eq_self_iff.2 hall, List.dropWhile_eq_nil_iff.2 hall]

theorem lines_feed (hline : lineFeed ∉ line) (rest : List UInt8) :
    lines (line ++ lineFeed :: rest) = stripReturn line :: lines rest := by
  rw [lines, dif_neg (by simp), cutLine_feed hline]

theorem lines_last (hne : line ≠ []) (hline : lineFeed ∉ line) : lines line = [line] := by
  rw [lines, dif_neg hne, cutLine_last hline, lines, dif_pos rfl]

/-- Bytes without a line feed, or a line, its line feed and the bytes after it. -/
@[elab_as_elim]
theorem lineInduction {P : List UInt8 → Prop} (last : ∀ bytes, lineFeed ∉ bytes → P bytes)
    (feed : ∀ line rest, lineFeed ∉ line → P rest → P (line ++ lineFeed :: rest))
    (bytes : List UInt8) : P bytes := by
  induction hlength : bytes.length using Nat.strongRecOn generalizing bytes with
  | _ n ih =>
    by_cases hfeed : lineFeed ∈ bytes
    · obtain ⟨line, rest, rfl, hline⟩ := List.eq_append_cons_of_mem hfeed
      refine feed line rest hline (ih rest.length ?_ rest rfl)
      rw [← hlength, List.length_append, List.length_cons]
      omega
    · exact last bytes hfeed

theorem isLines_lines (bytes : List UInt8) : IsLines bytes (lines bytes) := by
  induction bytes using lineInduction with
  | last bytes hfeed =>
    by_cases hnil : bytes = []
    · rw [hnil, lines, dif_pos rfl]
      exact .none
    · rw [lines_last hnil hfeed]
      exact .last hnil hfeed
  | feed line rest hline ih =>
    rw [lines_feed hline]
    rcases stripReturn_cases line with ⟨hreturn, hstrip⟩ | hstrip
    · rw [hstrip]
      exact .feed hline hreturn ih
    · have hbefore : lineFeed ∉ stripReturn line := fun hmem =>
        hline (hstrip ▸ List.mem_append_left _ hmem)
      rw [hstrip, stripReturn_append, List.append_assoc]
      exact .returnFeed hbefore ih

/-- The session cuts its input into lines as it should. -/
theorem isLines_iff : IsLines bytes ls ↔ lines bytes = ls := by
  refine ⟨fun h => ?_, fun h => h ▸ isLines_lines bytes⟩
  induction h with
  | none => rw [lines, dif_pos rfl]
  | last hne hline => exact lines_last hne hline
  | feed hline hreturn _ ih => rw [lines_feed hline, stripReturn_of_ne hreturn, ih]
  | @returnFeed line rest ls hline _ ih =>
    have hbefore : lineFeed ∉ line ++ [carriageReturn] := by
      rw [List.mem_append, List.mem_singleton, not_or]
      exact ⟨hline, by decide⟩
    have hlines := lines_feed hbefore rest
    rw [stripReturn_append, List.append_assoc] at hlines
    exact hlines.trans (congrArg _ ih)

/-! ## §3 Input in pieces -/

theorem move_last (style : Style) (hfeed : lineFeed ∉ bytes) : move style bytes = .read bytes := by
  rw [move, dif_neg (by simpa using hfeed)]

theorem move_feed (style : Style) (hline : lineFeed ∉ line) (rest : List UInt8) :
    move style (line ++ lineFeed :: rest) =
      match answer style (stripReturn line) with
      | .write text notes => .write text notes rest
      | .pass => move style rest
      | .quit => .finish true
      | .undecodable => .finish false := by
  rw [move, dif_pos (by simp)]
  cases hanswer : answer style (stripReturn line) <;> simp only [cutLine_feed hline, hanswer]

theorem length_of_move {style : Style} {text : String} {notes : List Note}
    (h : move style bytes = .write text notes rest) : rest.length < bytes.length := by
  induction bytes using lineInduction with
  | last bytes hfeed =>
    rw [move_last style hfeed] at h
    cases h
  | feed line later hline ih =>
    rw [move_feed style hline] at h
    rw [List.length_append, List.length_cons]
    split at h
    · cases h
      omega
    · have hlater := ih h
      omega
    · cases h
    · cases h

/-- The next move is the same whatever comes later. -/
theorem transcript_lines_append (style : Style) (bytes more : List UInt8) :
    transcript style (lines (bytes ++ more)) =
      match move style bytes with
      | .write text notes rest => (transcript style (lines (rest ++ more))).after text notes
      | .finish decodable => ⟨[], [], decodable⟩
      | .read pending => transcript style (lines (pending ++ more)) := by
  induction bytes using lineInduction with
  | last bytes hfeed => rw [move_last style hfeed]
  | feed line rest hline ih =>
    rw [move_feed style hline, List.append_assoc, List.cons_append, lines_feed hline, transcript]
    cases answer style (stripReturn line) with
    | write text notes => rfl
    | pass => exact ih
    | quit => rfl
    | undecodable => rfl

/-- The transcript of a session that has read some bytes and to which others come in pieces. -/
def transcriptOver (style : Style) (bytes : List UInt8) (pieces : List (List UInt8)) :
    Transcript :=
  match _h : move style bytes with
  | .write text notes rest => (transcriptOver style rest pieces).after text notes
  | .finish decodable => ⟨[], [], decodable⟩
  | .read pending =>
    match pieces with
    | [] => transcript style (lines pending)
    | piece :: pieces => transcriptOver style (pending ++ piece) pieces
termination_by (pieces.length, bytes.length)
decreasing_by
  · exact Prod.Lex.right _ (length_of_move _h)
  · exact Prod.Lex.left _ _ (Nat.lt_succ_self _)

/-- It makes no difference in which pieces the input comes. -/
theorem transcriptOver_eq (style : Style) (bytes : List UInt8) (pieces : List (List UInt8)) :
    transcriptOver style bytes pieces = transcript style (lines (bytes ++ pieces.flatten)) := by
  fun_induction transcriptOver style bytes pieces with
  | case1 bytes pieces text notes rest hmove ih =>
    rw [transcript_lines_append, hmove]
    simp only [ih]
  | case2 bytes pieces decodable hmove => rw [transcript_lines_append, hmove]
  | case3 bytes pending hmove =>
    rw [transcript_lines_append, hmove]
    simp
  | case4 bytes pending hmove piece pieces ih =>
    rw [transcript_lines_append, hmove, ih, List.flatten_cons, List.append_assoc]

end Session

end MatrixCalc
