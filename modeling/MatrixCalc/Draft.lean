import MatrixCalc.Decimal.Numeral
import MatrixCalc.Journal

/-!
# Drafts of literals

A literal is read piece by piece. A draft holds the numbers read so far and the number at hand,
which is not read before the next one begins or its row ends. Digits and signs join until a blank
comes, so `[1 -2]` has two numbers and `[1-2]` one that cannot be read.

A move that fails leaves a draft, and later moves go on from there.
-/

namespace MatrixCalc

/-- A literal on the way. -/
structure Draft where
  /-- The text of the number at hand. -/
  piece : String
  /-- The column where the number at hand begins. -/
  pieceColumn : Nat
  /-- Whether a blank came after the number at hand. -/
  spaced : Bool
  /-- The numbers read so far, row after row. -/
  values : Array Float
  /-- How many rows were begun. -/
  rows : Nat
  /-- How many numbers the last row has so far. -/
  cols : Nat
  /-- The length of the first row, once that row has ended. -/
  rowLength? : Option Nat

namespace Draft

/-- The draft with nothing in it, not even a row. -/
def empty : Draft := ⟨"", 0, false, #[], 0, 0, none⟩

def opened : Draft := { empty with rows := 1 }

/-- The shape that the draft has if its last row ends here. -/
def shape (d : Draft) : Shape := ⟨d.rows, d.rowLength?.getD d.cols⟩

/-! ## §1 Numbers -/

/-- Ends the number at hand. Text that is no numeral stays at hand. -/
def flush (d : Draft) : Outcome Draft :=
  if d.piece.isEmpty then .done { d with spaced := false } []
  else match Numeral.read? d.piece with
    | none =>
      .failed { d with spaced := false } (.text ⟨.invalidNumber d.piece, d.pieceColumn⟩)
    | some value =>
      .done
        { d with
          piece := ""
          spaced := false
          values := d.values.push value
          cols := d.cols + 1 }
        [.valueRead value d.rows d.cols]

def join (text : String) (column : Nat) (d : Draft) : Draft :=
  { d with
    piece := d.piece ++ text
    pieceColumn := if d.piece.isEmpty then column else d.pieceColumn }

/-- Text of a number: after a blank it begins a new number. -/
def addText (text : String) (column : Nat) (d : Draft) : Outcome Draft :=
  (if d.spaced then d.flush else .done d []).andThen fun d => .done (d.join text column) []

/-- A blank: the number at hand gets no more text. -/
def addSpace (d : Draft) : Draft := { d with spaced := true }

/-! ## §2 Rows -/

/-- Compares the last row with the first; the first row gives its length to the literal. -/
def fixRowLength (column : Nat) (d : Draft) : Outcome Draft :=
  if d.cols = 0 then .failed d (.text ⟨.emptyRow, column⟩)
  else match d.rowLength? with
    | none => .done { d with rowLength? := some d.cols } []
    | some expected =>
      if expected = d.cols then .done d []
      else .failed d (.text ⟨.unevenRow expected d.cols, column⟩)

/-- Ends the number at hand and the row it is in. -/
def settle (column : Nat) (d : Draft) : Outcome Draft := d.flush.andThen (fixRowLength column)

/-- Ends a row and begins the next. -/
def endRow (column : Nat) (d : Draft) : Outcome Draft :=
  (d.settle column).andThen fun d =>
    .done { d with cols := 0, rows := d.rows + 1 } [.rowOpened (d.rows + 1)]

/-- Ends the literal and gives its shape and its numbers. The draft itself does not change. -/
def close (column : Nat) (d : Draft) : Logged (Shape × Array Float) := do
  let last ← (d.settle column).toLogged
  return (last.shape, last.values)

end Draft

end MatrixCalc
