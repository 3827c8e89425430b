import MatrixCalc.Expression.Tree
import MatrixCalc.Stacks

/-!
# Outlines

The moves of `Stacks` on trees in place of matrices. An outline has the same waiting operators, but
where a matrix waits on the stacks it has the tree which that matrix is the value of. No move of an
outline computes anything, so an outline shows what is applied to what, and in which order.

A move that finds too few trees, or a group bracket without its partner, gives no outline at all.
`feed_cases` says all that a move can do, so that what every move preserves is shown on `Joins`.
-/

namespace MatrixCalc

universe u

/-- The waiting operators, and the trees of the waiting operands, the last one first. -/
structure Outline (α : Type u) where
  operators : List Operator
  trees : List (Tree (DenseMatrix α))

namespace Outline

variable {α : Type u}

/-! ## §1 Moves -/

def empty : Outline α := ⟨[], []⟩

/-- Puts an operator on top of the last trees, as many as it takes. -/
def join : Operator → List (Tree (DenseMatrix α)) → Option (List (Tree (DenseMatrix α)))
  | .unary u, t :: rest => some (.unary u t :: rest)
  | .binary b, right :: left :: rest => some (.binary b left right :: rest)
  | _, _ => none

/-- Joins what waits since the last opening bracket and removes that bracket. -/
def closeGroup : List Operator → List (Tree (DenseMatrix α)) → Option (Outline α)
  | [], _ => none
  | .opening :: operators, trees => some ⟨operators, trees⟩
  | op :: operators, trees => (join op trees).bind (closeGroup operators)

def pushOperator (op : Operator) (o : Outline α) : Option (Outline α) :=
  if op = .closing then closeGroup o.operators o.trees
  else match o.operators with
    | [] => some { o with operators := [op] }
    | top :: operators =>
      if Stacks.waitsAbove op top then some { o with operators := op :: top :: operators }
      else (join top o.trees).map fun trees => ⟨op :: operators, trees⟩

def pushTree (t : Tree (DenseMatrix α)) (o : Outline α) : Outline α :=
  { o with trees := t :: o.trees }

def feed (item : Item α) (o : Outline α) : Option (Outline α) :=
  match item with
  | .operator op => o.pushOperator op
  | .operand a => some (o.pushTree (.leaf a))

def feedAll : List (Item α) → Outline α → Option (Outline α)
  | [], o => some o
  | item :: items, o => (o.feed item).bind (feedAll items)

def drain : List Operator → List (Tree (DenseMatrix α)) → Option (List (Tree (DenseMatrix α)))
  | [], trees => some trees
  | op :: operators, trees => (join op trees).bind (drain operators)

/-- The tree that is left in the end. -/
def finish (o : Outline α) : Option (Tree (DenseMatrix α)) :=
  match drain o.operators o.trees with
  | some [t] => some t
  | _ => none

/-- The tree that some items come down to. -/
def ofItems? (items : List (Item α)) : Option (Tree (DenseMatrix α)) :=
  (empty.feedAll items).bind finish

/-! ## §2 What the moves do -/

@[simp] theorem feedAll_nil (o : Outline α) : feedAll [] o = some o := rfl

@[simp] theorem feedAll_cons (item : Item α) (items : List (Item α)) (o : Outline α) :
    feedAll (item :: items) o = (o.feed item).bind (feedAll items) := rfl

theorem feedAll_append (xs ys : List (Item α)) (o : Outline α) :
    feedAll (xs ++ ys) o = (feedAll xs o).bind (feedAll ys) := by
  induction xs generalizing o with
  | nil => rfl
  | cons x xs ih =>
    rw [List.cons_append, feedAll_cons, feedAll_cons, Option.bind_assoc]
    exact Option.bind_congr fun o' _ => ih o'

/-- Every operator but the opening bracket is joined when a group is closed. -/
theorem closeGroup_cons {op : Operator} (h : op ≠ .opening)
    (operators : List Operator) (trees : List (Tree (DenseMatrix α))) :
    closeGroup (op :: operators) trees = (join op trees).bind (closeGroup operators) := by
  cases op <;> first | rfl | exact absurd rfl h

theorem pushOperator_waits {op : Operator} {o : Outline α} (hop : op ≠ .closing)
    (h : ∀ top ∈ o.operators.head?, Stacks.waitsAbove op top = true) :
    o.pushOperator op = some { o with operators := op :: o.operators } := by
  obtain ⟨operators, trees⟩ := o
  rw [pushOperator, if_neg hop]
  cases operators with
  | nil => rfl
  | cons top operators => exact if_pos (h top rfl)

theorem pushOperator_joins {op top : Operator} {operators : List Operator}
    {trees joined : List (Tree (DenseMatrix α))} (hop : op ≠ .closing)
    (hw : Stacks.waitsAbove op top = false) (hj : join top trees = some joined) :
    (Outline.mk (top :: operators) trees).pushOperator op = some ⟨op :: operators, joined⟩ := by
  rw [pushOperator, if_neg hop]
  simp only [hw, hj, Bool.false_eq_true, if_false, Option.map_some]

/-- What an operator does when it arrives: it closes a group, it waits, or it makes the last waiting
operator join and waits then. -/
theorem pushOperator_cases {op : Operator} {o o' : Outline α} (h : o.pushOperator op = some o') :
    (op = .closing ∧ closeGroup o.operators o.trees = some o') ∨
    (op ≠ .closing ∧ (∀ top ∈ o.operators.head?, Stacks.waitsAbove op top = true) ∧
      o' = { o with operators := op :: o.operators }) ∨
    (op ≠ .closing ∧ ∃ top operators trees, o.operators = top :: operators ∧
      Stacks.waitsAbove op top = false ∧ join top o.trees = some trees ∧
      o' = ⟨op :: operators, trees⟩) := by
  obtain ⟨operators, trees⟩ := o
  by_cases hop : op = .closing
  · subst hop
    exact .inl ⟨rfl, h⟩
  · rw [pushOperator, if_neg hop] at h
    cases operators with
    | nil => exact .inr (.inl ⟨hop, by simp, (Option.some.inj h).symm⟩)
    | cons top operators =>
      cases hw : Stacks.waitsAbove op top with
      | true =>
        simp only [hw, if_true] at h
        exact .inr (.inl ⟨hop, by simpa using hw, (Option.some.inj h).symm⟩)
      | false =>
        simp only [hw, Bool.false_eq_true, if_false] at h
        obtain ⟨trees', hj, he⟩ := Option.map_eq_some_iff.1 h
        exact .inr (.inr ⟨hop, top, operators, trees', rfl, hw, hj, he.symm⟩)

theorem drain_of_finish {o : Outline α} {t : Tree (DenseMatrix α)} (h : o.finish = some t) :
    drain o.operators o.trees = some [t] := by
  unfold finish at h
  split at h
  · next s hs =>
    cases h
    exact hs
  · cases h

/-! ## §3 Joins -/

/-- The last waiting operators are joined one after the other, any number of them. -/
inductive Joins : Outline α → Outline α → Prop where
  | refl (o : Outline α) : Joins o o
  | step {op : Operator} {operators : List Operator} {trees joined : List (Tree (DenseMatrix α))}
      {o' : Outline α} (hj : join op trees = some joined) (h : Joins ⟨operators, joined⟩ o') :
      Joins ⟨op :: operators, trees⟩ o'

theorem joins_of_closeGroup {operators : List Operator} {trees : List (Tree (DenseMatrix α))}
    {o' : Outline α} (h : closeGroup operators trees = some o') :
    Joins ⟨operators, trees⟩ ⟨.opening :: o'.operators, o'.trees⟩ := by
  induction operators generalizing trees with
  | nil => cases h
  | cons op operators ih =>
    by_cases hop : op = .opening
    · subst hop
      cases h
      exact .refl _
    · rw [closeGroup_cons hop] at h
      obtain ⟨joined, hj, hc⟩ := Option.bind_eq_some_iff.1 h
      exact .step hj (ih hc)

theorem joins_of_drain {operators : List Operator} {trees trees' : List (Tree (DenseMatrix α))}
    (h : drain operators trees = some trees') : Joins ⟨operators, trees⟩ ⟨[], trees'⟩ := by
  induction operators generalizing trees with
  | nil =>
    cases h
    exact .refl _
  | cons op operators ih =>
    obtain ⟨joined, hj, hd⟩ := Option.bind_eq_some_iff.1 h
    exact .step hj (ih hd)

theorem joins_of_finish {o : Outline α} {t : Tree (DenseMatrix α)} (h : o.finish = some t) :
    Joins o ⟨[], [t]⟩ :=
  joins_of_drain (drain_of_finish h)

/-- All that an item can do: an operand is put on top; a closing bracket joins back to an opening
one and takes it away; any other operator joins what it must and then waits. -/
theorem feed_cases {item : Item α} {o o' : Outline α} (h : o.feed item = some o') :
    (∃ a, item = .operand a ∧ o' = o.pushTree (.leaf a)) ∨
    (item = .operator .closing ∧ Joins o ⟨.opening :: o'.operators, o'.trees⟩) ∨
    (∃ op p, op ≠ .closing ∧ item = .operator op ∧ Joins o p ∧
      o' = ⟨op :: p.operators, p.trees⟩) := by
  cases item with
  | operand a => exact .inl ⟨a, rfl, (Option.some.inj h).symm⟩
  | operator op =>
    rcases pushOperator_cases h with
      ⟨rfl, hc⟩ | ⟨hop, -, rfl⟩ | ⟨hop, top, operators, joined, ho, -, hj, rfl⟩
    · exact .inr (.inl ⟨rfl, joins_of_closeGroup hc⟩)
    · exact .inr (.inr ⟨op, o, hop, rfl, .refl o, rfl⟩)
    · obtain ⟨operators', trees⟩ := o
      cases ho
      exact .inr (.inr ⟨op, ⟨operators, joined⟩, hop, rfl, .step hj (.refl _), rfl⟩)

end Outline

end MatrixCalc
