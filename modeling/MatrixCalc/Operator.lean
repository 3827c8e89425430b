/-!
# Operators

The operators of an expression: four prefix words, three signs between operands and the two group
brackets. Every operator has a rank; the lower of two ranks binds tighter. Subtraction has a rank
of its own above addition, so a mixed run of `+` and `-` is not always reduced from left to right.
-/

namespace MatrixCalc

/-- The operators written as a word before their operand. -/
inductive Unary where
  | transpose
  | ref
  | inverse
  | rref
deriving DecidableEq, Repr

/-- The operators written as a sign between their operands. -/
inductive Binary where
  | times
  | minus
  | plus
deriving DecidableEq, Repr

/-- An operator of an expression, or a bracket around a group. -/
inductive Operator where
  | opening
  | closing
  | unary (u : Unary)
  | binary (b : Binary)
deriving DecidableEq, Repr

namespace Unary

def word : Unary → String
  | transpose => "transpose"
  | ref => "ref"
  | inverse => "inverse"
  | rref => "rref"

def ofWord? : String → Option Unary
  | "transpose" => some transpose
  | "ref" => some ref
  | "inverse" => some inverse
  | "rref" => some rref
  | _ => none

@[simp] theorem ofWord?_word (u : Unary) : ofWord? u.word = some u := by
  cases u <;> rfl

theorem word_of_ofWord? {w : String} {u : Unary} (h : ofWord? w = some u) : w = u.word := by
  unfold ofWord? at h
  split at h <;> simp_all <;> subst h <;> rfl

end Unary

namespace Binary

def sign : Binary → String
  | times => "*"
  | minus => "-"
  | plus => "+"

end Binary

namespace Operator

def text : Operator → String
  | opening => "("
  | closing => ")"
  | unary u => u.word
  | binary b => b.sign

/-- The rank of an operator: the lower it is, the tighter the operator binds. -/
def rank : Operator → Nat
  | opening => 0
  | unary .transpose => 1
  | unary .ref => 2
  | unary .inverse => 3
  | unary .rref => 4
  | binary .times => 5
  | binary .minus => 6
  | binary .plus => 7
  | closing => 8

def bindsTighter (a b : Operator) : Bool := a.rank < b.rank

/-- How many operands an operator takes; a bracket takes none. -/
def arity : Operator → Nat
  | opening | closing => 0
  | unary _ => 1
  | binary _ => 2

end Operator

end MatrixCalc
