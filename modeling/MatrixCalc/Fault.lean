import MatrixCalc.Operator

/-!
# Faults

Why an expression has no value. A fault of the text names the place it is about; a fault of the
calculation names the operator or the shapes that do not fit. Each cause has one sentence and
belongs to one of four kinds.
-/

namespace MatrixCalc

/-! ## §1 Shapes and kinds -/

/-- The row count and the column count of a matrix. -/
structure Shape where
  rows : Nat
  cols : Nat
deriving DecidableEq, Repr

namespace Shape

def isSquare (s : Shape) : Bool := s.rows == s.cols

def transpose (s : Shape) : Shape := ⟨s.cols, s.rows⟩

/-- The written form, as in `2x3`. -/
def text (s : Shape) : String := s!"{s.rows}x{s.cols}"

end Shape

inductive FaultKind where
  /-- Brackets out of place, or an expression that does not come down to one matrix. -/
  | malformedExpression
  | unfitShapes
  /-- A literal with uneven rows or with a piece that is no number. -/
  | malformedLiteral
  /-- A word that names no operation, or an operator that cannot be applied. -/
  | unknownOperation
deriving DecidableEq, Repr

/-! ## §2 Faults of the text -/

/-- What is wrong with the text of an expression. -/
inductive TextCause where
  /-- A bracket, operator or row end where none may stand, or a literal without its end. -/
  | strayBracket
  /-- A row with another length than the first row of its literal. -/
  | unevenRow (expected found : Nat)
  | emptyRow
  /-- A piece of a literal that is no number. -/
  | invalidNumber (text : String)
  | numberOutside (text : String)
  | invalidCharacter (text : String)
  | unknownWord (word : String)
deriving DecidableEq, Repr

/-- A fault of the text and the byte offset of the place it is about. -/
structure TextFault where
  cause : TextCause
  column : Nat
deriving DecidableEq, Repr

namespace TextFault

def kind (f : TextFault) : FaultKind :=
  match f.cause with
  | .strayBracket | .numberOutside _ => .malformedExpression
  | .unevenRow _ _ | .emptyRow | .invalidNumber _ | .invalidCharacter _ => .malformedLiteral
  | .unknownWord _ => .unknownOperation

def message (f : TextFault) : String :=
  match f with
  | ⟨.strayBracket, column⟩ => s!"Inconsistent matrix brackets at column {column}."
  | ⟨.unevenRow expected found, column⟩ =>
    s!"Matrix has inconsistent size: expected {expected} values per row, " ++
      s!"found {found} (column {column})."
  | ⟨.emptyRow, column⟩ => s!"Matrix row without values at column {column}."
  | ⟨.invalidNumber text, column⟩ => s!"Invalid number '{text}' at column {column}."
  | ⟨.numberOutside text, column⟩ =>
    s!"Number '{text}' outside of matrix brackets at column {column}."
  | ⟨.invalidCharacter text, column⟩ => s!"Invalid character '{text}' at column {column}."
  | ⟨.unknownWord word, _⟩ => s!"'{word}' is not a defined unary operation."

end TextFault

/-! ## §3 Faults of the calculation -/

/-- What is wrong with the operators and operands of an expression. -/
inductive CalcFault where
  /-- The operands of a binary operator have shapes that do not go together. -/
  | unfitOperands (op : Operator) (left right : Shape)
  /-- Only a square matrix has an inverse. -/
  | notSquare (shape : Shape)
  | raggedRows (row expected found : Nat)
  | emptyMatrix
  | missingOperand (op : Operator)
  /-- A group bracket without its partner. -/
  | unbalancedBrackets
  /-- Several operands and no operator left to join them. -/
  | leftoverOperands (count : Nat)
  | emptyExpression
  /-- An operator that is never applied to operands. -/
  | unsupportedOperator (op : Operator)
deriving DecidableEq, Repr

namespace CalcFault

def kind : CalcFault → FaultKind
  | unfitOperands _ _ _ | notSquare _ => .unfitShapes
  | raggedRows _ _ _ | emptyMatrix => .malformedLiteral
  | missingOperand _ | unbalancedBrackets | leftoverOperands _ | emptyExpression =>
    .malformedExpression
  | unsupportedOperator _ => .unknownOperation

def message : CalcFault → String
  | unfitOperands op left right =>
    s!"Matrices do not have appropriate dimensions for '{op.text}': " ++
      s!"{left.text} and {right.text}."
  | notSquare shape => s!"Matrix is not a square matrix: {shape.text}."
  | raggedRows row expected found =>
    s!"The input matrix does not have appropriate dimensions: row {row} has {found} values, " ++
      s!"expected {expected}."
  | emptyMatrix => "A matrix needs at least one row and one column."
  | missingOperand op => s!"Invalid expression: '{op.text}' is missing an operand."
  | unbalancedBrackets => "Invalid expression: unbalanced brackets."
  | leftoverOperands count =>
    s!"Invalid expression: {count} operands left without an operator."
  | emptyExpression => "Invalid expression: nothing to evaluate."
  | unsupportedOperator op => s!"Invalid operator: {op.text}."

end CalcFault

/-! ## §4 Either one -/

/-- Why an expression has no value. -/
inductive Fault where
  | text (fault : TextFault)
  | calculation (fault : CalcFault)
deriving DecidableEq, Repr

namespace Fault

def kind : Fault → FaultKind
  | .text f => f.kind
  | .calculation f => f.kind

def message : Fault → String
  | .text f => f.message
  | .calculation f => f.message

end Fault

end MatrixCalc
