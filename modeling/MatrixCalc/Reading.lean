import MatrixCalc.Draft
import MatrixCalc.Item
import MatrixCalc.Token.Basic

/-!
# Reading

`Reading.step` makes items of tokens. Outside a literal a token is an item by itself; the tokens of
a literal together are one. `Reading.items` reads some tokens in a row and collects their items.
-/

namespace MatrixCalc

/-- Where reading stands between two tokens. -/
inductive Reading where
  | outside
  | inside (draft : Draft)

namespace Reading

def operatorOf (word : String) (column : Nat) : Except TextFault Operator :=
  match Unary.ofWord? word with
  | some u => .ok (.unary u)
  | none => .error ⟨.unknownWord word, column⟩

def refuse {β : Type} (cause : TextCause) (column : Nat) : Logged β := .fail (.text ⟨cause, column⟩)

def stepOutside (token : Token) (column : Nat) : Logged (Reading × Option (Item Float)) :=
  let emit (op : Operator) : Logged (Reading × Option (Item Float)) :=
    pure (outside, some (.operator op))
  match token with
  | .word text =>
    match operatorOf text column with
    | .ok op => emit op
    | .error f => .fail (.text f)
  | .digits text => refuse (.numberOutside text) column
  | .minus => emit (.binary .minus)
  | .plus => emit (.binary .plus)
  | .star => emit (.binary .times)
  | .opening => emit .opening
  | .closing => emit .closing
  | .literalStart => ⟨[.literalOpened column], .ok (inside .opened, none)⟩
  | .literalEnd | .rowEnd => refuse .strayBracket column
  | .space => pure (outside, none)

def stepInside (d : Draft) (token : Token) (column : Nat) :
    Logged (Reading × Option (Item Float)) :=
  let goOn (x : Outcome Draft) : Logged (Reading × Option (Item Float)) := do
    let next ← x.toLogged
    return (inside next, none)
  match token with
  | .digits text => goOn (d.addText text column)
  | .minus => goOn (d.addText "-" column)
  | .space => pure (inside d.addSpace, none)
  | .rowEnd => goOn (d.endRow column)
  | .literalEnd => do
    let (shape, values) ← d.close column
    match DenseMatrix.ofFlat shape.rows shape.cols values with
    | .error f => .fail (.calculation f)
    | .ok a => ⟨[.literalClosed column], .ok (outside, some (.operand a))⟩
  | .word text =>
    match operatorOf text column with
    | .ok _ => refuse .strayBracket column
    | .error f => .fail (.text f)
  | .plus | .star | .opening | .closing | .literalStart => refuse .strayBracket column

/-- One token: where reading stands after it, and the item it completes, if any. -/
def step (token : Token) (column : Nat) : Reading → Logged (Reading × Option (Item Float))
  | outside => stepOutside token column
  | inside d => stepInside d token column

/-- The items of some tokens, and where reading stands after them. -/
def items : List Placed → Reading → Logged (List (Item Float) × Reading)
  | [], reading => pure ([], reading)
  | t :: ts, reading => do
    let (next, item?) ← reading.step t.token t.column
    let (later, last) ← items ts next
    return (item?.toList ++ later, last)

/-- The end of the text: no literal may be open. -/
def finish (column : Nat) : Reading → Except TextFault Unit
  | outside => .ok ()
  | inside _ => .error ⟨.strayBracket, column⟩

end Reading

end MatrixCalc
