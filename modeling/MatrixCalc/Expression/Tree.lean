import MatrixCalc.Item

/-!
# Expression trees

A tree says which operator is applied to what. Its value is computed from the leaves up, operands
from left to right. Its items and its text have a pair of brackets around every operand of a unary
operator and around every binary operation, so they leave nothing to precedence.
-/

namespace MatrixCalc

universe u v

/-- An expression with leaves of some type. -/
inductive Tree (β : Type u) where
  | leaf (b : β)
  | unary (op : Unary) (operand : Tree β)
  | binary (op : Binary) (left right : Tree β)
deriving Repr

namespace Tree

variable {β : Type u} {γ : Type v}

/-! ## §1 Parts -/

def leaves : Tree β → List β
  | leaf b => [b]
  | unary _ t => t.leaves
  | binary _ l r => l.leaves ++ r.leaves

def operators : Tree β → List Operator
  | leaf _ => []
  | unary op t => .unary op :: t.operators
  | binary op l r => l.operators ++ .binary op :: r.operators

def map (f : β → γ) : Tree β → Tree γ
  | leaf b => leaf (f b)
  | unary op t => unary op (t.map f)
  | binary op l r => binary op (l.map f) (r.map f)

/-! ## §2 Value -/

/-- The value of a tree: the operands' values from left to right, then the operator. The first fault
on that way is the fault of the tree. -/
def value {α : Type u} [Scalar α] : Tree (DenseMatrix α) → Except Fault (DenseMatrix α)
  | leaf a => .ok a
  | unary op t => do
    let a ← t.value
    (op.apply a).result
  | binary op l r => do
    let a ← l.value
    let b ← r.value
    (op.apply a b).mapError .calculation

/-! ## §3 Written forms -/

/-- The items of a tree, fully bracketed. -/
def items {α : Type u} : Tree (DenseMatrix α) → List (Item α)
  | leaf a => [.operand a]
  | unary op t =>
    .operator (.unary op) :: .operator .opening :: (t.items ++ [.operator .closing])
  | binary op l r =>
    .operator .opening :: (l.items ++ .operator (.binary op) :: (r.items ++ [.operator .closing]))

/-- The text of a tree, fully bracketed, with a given text for each leaf. -/
def text (leafText : β → String) : Tree β → String
  | leaf b => leafText b
  | unary op t => op.word ++ "(" ++ t.text leafText ++ ")"
  | binary op l r => "(" ++ l.text leafText ++ op.sign ++ r.text leafText ++ ")"

@[simp] theorem leaves_map (f : β → γ) (t : Tree β) : (t.map f).leaves = t.leaves.map f := by
  induction t with
  | leaf b => rfl
  | unary op t ih => exact ih
  | binary op l r ihl ihr => simp only [map, leaves, ihl, ihr, List.map_append]

@[simp] theorem operators_map (f : β → γ) (t : Tree β) : (t.map f).operators = t.operators := by
  induction t with
  | leaf b => rfl
  | unary op t ih => simp only [map, operators, ih]
  | binary op l r ihl ihr => simp only [map, operators, ihl, ihr]

end Tree

end MatrixCalc
