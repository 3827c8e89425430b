import MatrixCalc.Item

/-!
# The grammar of expressions

An expression is a chain of terms with binary operators between them. A term is a matrix or a
bracketed expression, with at most one unary operator before it. The grammar says how the items of
an expression may follow each other; it says nothing about precedence.
-/

namespace MatrixCalc

universe u

mutual

/-- A matrix or a group, with a unary operator before it or without. -/
inductive Term (α : Type u) where
  | operand (op? : Option Unary) (a : DenseMatrix α)
  | group (op? : Option Unary) (inner : Chain α)

/-- Terms with binary operators between them. -/
inductive Chain (α : Type u) where
  | last (t : Term α)
  | cons (t : Term α) (op : Binary) (rest : Chain α)

end

def Unary.optionItems {α : Type u} (op? : Option Unary) : List (Item α) :=
  op?.toList.map fun op => .operator (.unary op)

mutual

def Term.items {α : Type u} : Term α → List (Item α)
  | .operand op? a => Unary.optionItems op? ++ [.operand a]
  | .group op? inner =>
    Unary.optionItems op? ++ .operator .opening :: (inner.items ++ [.operator .closing])

def Chain.items {α : Type u} : Chain α → List (Item α)
  | .last t => t.items
  | .cons t op rest => t.items ++ .operator (.binary op) :: rest.items

end

/-- Items that an expression of the grammar has. -/
def IsExpression {α : Type u} (items : List (Item α)) : Prop := ∃ c : Chain α, c.items = items

end MatrixCalc
