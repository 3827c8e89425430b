import MatrixCalc.Item

/-!
# Reduction by precedence

An expression is reduced as its items arrive, on two stacks. An operand waits on one stack. An
operator that does not bind tighter than the last waiting one makes that one, and only that one,
reduce first; then it waits itself. A closing bracket reduces all that waits since its opening
bracket, and the end of the expression reduces all that waits.

A failed move leaves stacks too: the operator that was to be reduced is gone from its stack, and so
are its operands unless there were too few of them.
-/

namespace MatrixCalc

universe u

/-- The waiting operators and operands, the last one first. -/
structure Stacks (α : Type u) where
  operators : List Operator
  operands : List (DenseMatrix α)

namespace Stacks

variable {α : Type u} [Scalar α]

def empty : Stacks α := ⟨[], []⟩

/-! ## §1 One reduction -/

/-- Applies an operator to the last operands and puts the result in their place. An opening bracket
hands the last operand back; a closing one is not applied to anything. -/
def reduce (op : Operator) (operands : List (DenseMatrix α)) : Outcome (List (DenseMatrix α)) :=
  match op, operands with
  | .unary u, a :: rest =>
    let made := u.apply a
    match made.result with
    | .ok b => .done (b :: rest) (made.notes ++ [.reduced op b.toShape])
    | .error f => ⟨made.notes, rest, some f⟩
  | .binary b, right :: left :: rest =>
    match b.apply left right with
    | .ok c => .done (c :: rest) [.reduced op c.toShape]
    | .error f => .failed rest (.calculation f)
  | .opening, a :: rest => .done (a :: rest) [.reduced op a.toShape]
  | .unary _, _ | .binary _, _ | .opening, _ =>
    .failed operands (.calculation (.missingOperand op))
  | .closing, _ => .failed operands (.calculation (.unsupportedOperator op))

/-! ## §2 Arrivals -/

def pushOperand (a : DenseMatrix α) (s : Stacks α) : Outcome (Stacks α) :=
  .done { s with operands := a :: s.operands } [.operand a.toShape]

/-- Reduces what waits since the last opening bracket and removes that bracket. -/
def closeGroup : List Operator → List (DenseMatrix α) → Outcome (Stacks α)
  | [], operands => .failed ⟨[], operands⟩ (.calculation .unbalancedBrackets)
  | .opening :: operators, operands => .done ⟨operators, operands⟩ []
  | op :: operators, operands =>
    ((reduce op operands).map (Stacks.mk operators)).andThen fun s =>
      closeGroup operators s.operands

/-- Whether an operator may wait on top of another without reducing it. -/
def waitsAbove (op top : Operator) : Bool :=
  op == .opening || top == .opening || op.bindsTighter top

def pushOperator (op : Operator) (s : Stacks α) : Outcome (Stacks α) :=
  Outcome.after [.operator op] <|
    if op = .closing then closeGroup s.operators s.operands
    else match s.operators with
      | [] => .done { s with operators := [op] } []
      | top :: operators =>
        if waitsAbove op top then .done { s with operators := op :: top :: operators } []
        else ((reduce top s.operands).map (Stacks.mk operators)).andThen fun t =>
          .done { t with operators := op :: t.operators } []

def feed (item : Item α) (s : Stacks α) : Outcome (Stacks α) :=
  match item with
  | .operator op => s.pushOperator op
  | .operand a => s.pushOperand a

/-- Some items arrive one after the other; the first failed move is the last one made. -/
def feedAll : List (Item α) → Stacks α → Outcome (Stacks α)
  | [], s => .done s []
  | item :: items, s => (s.feed item).andThen (feedAll items)

/-! ## §3 The end -/

/-- Reduces all waiting operators; none of them may be an opening bracket. -/
def drain : List Operator → List (DenseMatrix α) → Outcome (List (DenseMatrix α))
  | [], operands => .done operands []
  | .opening :: _, operands => .failed operands (.calculation .unbalancedBrackets)
  | op :: operators, operands => (reduce op operands).andThen (drain operators)

/-- The value of an expression whose items have all arrived: the one operand that is left. -/
def finish (s : Stacks α) : Logged (DenseMatrix α) := do
  match ← (drain s.operators s.operands).toLogged with
  | [] => .fail (.calculation .emptyExpression)
  | [a] => return a
  | operands => .fail (.calculation (.leftoverOperands operands.length))

end Stacks

end MatrixCalc
