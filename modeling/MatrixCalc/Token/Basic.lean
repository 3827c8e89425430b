/-!
# Tokens

The pieces of an expression's text. What a piece means depends on whether a literal is open: a `-`
is an operator outside and a sign inside.
-/

namespace MatrixCalc

/-- A piece of the text of an expression. -/
inductive Token where
  /-- A run of small letters. -/
  | word (text : String)
  /-- A run of digits and points. -/
  | digits (text : String)
  | minus
  | plus
  | star
  | opening
  | closing
  | literalStart
  | literalEnd
  /-- The semicolon between two rows of a literal. -/
  | rowEnd
  /-- A run of spaces, tabs, form feeds and line breaks. -/
  | space
deriving DecidableEq, Repr

/-- A token and the byte offset where it begins. -/
structure Placed where
  token : Token
  column : Nat
deriving DecidableEq, Repr

namespace Token

/-! ## Classes of characters -/

/-- The letters of words. -/
def isLetter (c : Char) : Bool := 'a' ≤ c && c ≤ 'z'

/-- The characters of digit runs. -/
def isNumeric (c : Char) : Bool := ('0' ≤ c && c ≤ '9') || c == '.'

/-- The characters between tokens. -/
def isSpacing (c : Char) : Bool :=
  c == ' ' || c == '\t' || c == '\x0c' || c == '\r' || c == '\n'

/-- The token that a single character is. -/
def ofMark? : Char → Option Token
  | '-' => some minus
  | '+' => some plus
  | '*' => some star
  | '(' => some opening
  | ')' => some closing
  | '[' => some literalStart
  | ']' => some literalEnd
  | ';' => some rowEnd
  | _ => none

end Token

end MatrixCalc
