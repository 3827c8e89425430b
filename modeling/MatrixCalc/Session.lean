import MatrixCalc.Evaluation
import MatrixCalc.Text

/-!
# Sessions

A session reads one expression a line and writes one answer for each: the value or the sentence of
the fault. Blank lines have no answer. A session ends with its input, at the quit command, or at a
line that is not UTF-8 text. The notes of the evaluations are kept beside the answers, for the
surroundings of the program to write about.
-/

namespace MatrixCalc

/-- Whether a line is the quit command: a caret and the letter Q of either case, with any blanks
around them. -/
def isQuit (line : String) : Bool :=
  let body := Text.trim line.toList
  body == ['^', 'Q'] || body == ['^', 'q']

/-- A text with exactly one line break at its end, if it had at most one there. -/
def asLines (text : String) : String := if text.endsWith "\n" then text else text ++ "\n"

namespace Session

/-! ## §1 One line -/

inductive Answer where
  /-- Writes a text that came about as the notes tell. -/
  | write (text : String) (notes : List Note)
  | pass
  | quit
  /-- Ends because the line is not UTF-8 text. -/
  | undecodable

def answerText (style : Style) (line : String) : Answer :=
  if isQuit line then .quit
  else if (Text.trim line.toList).isEmpty then .pass
  else
    let made := evaluateToText style line
    match made.result with
    | .ok text => .write (asLines text) made.notes
    | .error f => .write (f.message ++ "\n") made.notes

def answer (style : Style) (line : List UInt8) : Answer :=
  match String.fromUTF8? ⟨line.toArray⟩ with
  | none => .undecodable
  | some text => answerText style text

/-! ## §2 Lines -/

def lineFeed : UInt8 := 10

/-- The byte that belongs to the end of a line if it stands right before it. -/
def carriageReturn : UInt8 := 13

/-- A line whose end was found, without a carriage return at its own end. -/
def stripReturn (line : List UInt8) : List UInt8 :=
  if line.getLast? = some carriageReturn then line.dropLast else line

/-- The first line of some bytes and what follows it. Bytes without line feed are a line as they
stand. -/
def cutLine (bytes : List UInt8) : List UInt8 × List UInt8 :=
  let line := bytes.takeWhile (· != lineFeed)
  match bytes.dropWhile (· != lineFeed) with
  | [] => (line, [])
  | _ :: rest => (stripReturn line, rest)

theorem length_cutLine_lt {bytes : List UInt8} (h : bytes ≠ []) :
    (cutLine bytes).2.length < bytes.length := by
  unfold cutLine
  have hle : (bytes.dropWhile (· != lineFeed)).length ≤ bytes.length :=
    (List.dropWhile_sublist _).length_le
  have hpos : 0 < bytes.length := List.length_pos_iff.2 h
  split
  · simpa using hpos
  · next hd =>
    rw [hd, List.length_cons] at hle
    exact hle

def lines (bytes : List UInt8) : List (List UInt8) :=
  if _h : bytes = [] then []
  else (cutLine bytes).1 :: lines (cutLine bytes).2
termination_by bytes.length
decreasing_by exact length_cutLine_lt _h

/-- Of the bytes before a line feed one carriage return is dropped; the last line keeps its own. -/
example : lines [65, 13, 10, 10, 66, 13, 13, 10, 67, 13] = [[65], [], [66, 13], [67, 13]] := by
  decide +kernel

/-! ## §3 All lines -/

/-- What a session wrote, the notes on it, and whether all it read was text. -/
structure Transcript where
  output : List String
  notes : List Note
  decodable : Bool

def Transcript.after (text : String) (notes : List Note) (t : Transcript) : Transcript :=
  ⟨text :: t.output, notes ++ t.notes, t.decodable⟩

@[simp] theorem Transcript.output_after (text : String) (notes : List Note) (t : Transcript) :
    (t.after text notes).output = text :: t.output := rfl

@[simp] theorem Transcript.notes_after (text : String) (notes : List Note) (t : Transcript) :
    (t.after text notes).notes = notes ++ t.notes := rfl

def transcript (style : Style) : List (List UInt8) → Transcript
  | [] => ⟨[], [], true⟩
  | line :: rest =>
    match answer style line with
    | .quit => ⟨[], [], true⟩
    | .undecodable => ⟨[], [], false⟩
    | .pass => transcript style rest
    | .write text notes => (transcript style rest).after text notes

/-! ## §4 Input that comes in pieces -/

/-- What a session does next about the bytes that it has read and not answered. -/
inductive Move where
  /-- Writes a text; the bytes after the line are left. -/
  | write (text : String) (notes : List Note) (rest : List UInt8)
  /-- Reads on, because no line is complete. -/
  | read (pending : List UInt8)
  | finish (decodable : Bool)

/-- The next move: lines without an answer are passed over. -/
def move (style : Style) (bytes : List UInt8) : Move :=
  if _h : bytes.contains lineFeed then
    match answer style (cutLine bytes).1 with
    | .write text notes => .write text notes (cutLine bytes).2
    | .pass => move style (cutLine bytes).2
    | .quit => .finish true
    | .undecodable => .finish false
  else .read bytes
termination_by bytes.length
decreasing_by exact length_cutLine_lt fun hnil => by simp [hnil] at _h

/-! ## §5 The end -/

def status (decodable : Bool) : UInt8 := if decodable then 0 else 1

def undecodableMessage : String :=
  "Failed to read standard input: stream did not contain valid UTF-8"

/-- What is written about the end of a session. -/
def errorText (decodable : Bool) : String := if decodable then "" else undecodableMessage ++ "\n"

end Session

end MatrixCalc
