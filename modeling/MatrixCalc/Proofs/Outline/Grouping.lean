import MatrixCalc.Proofs.Outline.Groups

/-!
# Expressions of the grammar

Items that the grammar derives always come down to one tree, and that tree is one of the ways to put
parentheses around the binary operations of the expression: `Grouped` lists these ways. A bracketed
expression stays one operand, and a unary operator is applied to the matrix or the group right after
it and to nothing more. Which way it is depends on the ranks; that there is one does not.

§1 ways to group · §2 what waits between two terms · §3 whole expressions
-/

namespace MatrixCalc

universe u

variable {α : Type u}

/-! ## §1 Ways to group -/

inductive Part where
  /-- A matrix or a bracketed expression. -/
  | atom
  /-- An atom, with a unary operator before it or without. -/
  | term
  /-- Terms with binary operators between them. -/
  | chain

/-- `Grouped p items t`: the items are a part of an expression, and `t` is one way to read it. -/
inductive Grouped : Part → List (Item α) → Tree (DenseMatrix α) → Prop where
  | operand (a : DenseMatrix α) : Grouped .atom [.operand a] (.leaf a)
  | group {items : List (Item α)} {t : Tree (DenseMatrix α)} (h : Grouped .chain items t) :
      Grouped .atom (.operator .opening :: (items ++ [.operator .closing])) t
  | plain {items : List (Item α)} {t : Tree (DenseMatrix α)} (h : Grouped .atom items t) :
      Grouped .term items t
  | unary (u : Unary) {items : List (Item α)} {t : Tree (DenseMatrix α)}
      (h : Grouped .atom items t) : Grouped .term (.operator (.unary u) :: items) (.unary u t)
  | single {items : List (Item α)} {t : Tree (DenseMatrix α)} (h : Grouped .term items t) :
      Grouped .chain items t
  | binary (b : Binary) {xs ys : List (Item α)} {l r : Tree (DenseMatrix α)}
      (hl : Grouped .chain xs l) (hr : Grouped .chain ys r) :
      Grouped .chain (xs ++ .operator (.binary b) :: ys) (.binary b l r)

/-- The items of a tree from left to right, without brackets. -/
def Tree.inorder : Tree (DenseMatrix α) → List (Item α)
  | leaf a => [.operand a]
  | unary u t => .operator (.unary u) :: t.inorder
  | binary b l r => l.inorder ++ .operator (.binary b) :: r.inorder

def Item.isBracket : Item α → Bool
  | .operator .opening | .operator .closing => true
  | _ => false

theorem Grouped.inorder_eq {p : Part} {items : List (Item α)} {t : Tree (DenseMatrix α)}
    (h : Grouped p items t) : t.inorder = items.filter (!·.isBracket) := by
  induction h with
  | operand a => rfl
  | group h ih => simp [ih, Item.isBracket]
  | plain h ih => exact ih
  | unary u h ih =>
    rw [Tree.inorder, ih]
    rfl
  | single h ih => exact ih
  | binary b hl hr ihl ihr =>
    rw [Tree.inorder, ihl, ihr, List.filter_append]
    rfl

/-! ## §2 What waits between two terms -/

namespace Outline

/-- `Waiting items operators trees`: the items are a chain, and the trees are ways to read
consecutive pieces of it, with the waiting binary operators between them. -/
inductive Waiting : List (Item α) → List Operator → List (Tree (DenseMatrix α)) → Prop where
  | first {items : List (Item α)} {t : Tree (DenseMatrix α)} (h : Grouped .chain items t) :
      Waiting items [] [t]
  | next (b : Binary) {xs ys : List (Item α)} {operators : List Operator}
      {t : Tree (DenseMatrix α)} {trees : List (Tree (DenseMatrix α))}
      (hw : Waiting xs operators trees) (h : Grouped .chain ys t) :
      Waiting (xs ++ .operator (.binary b) :: ys) (.binary b :: operators) (t :: trees)

/-- Whatever operator waits last, joining it leaves pieces of the same chain. -/
theorem Waiting.join {items : List (Item α)} {op : Operator} {operators : List Operator}
    {trees : List (Tree (DenseMatrix α))} (h : Waiting items (op :: operators) trees) :
    ∃ joined, Outline.join op trees = some joined ∧ Waiting items operators joined := by
  cases h with
  | next b hw hr =>
    cases hw with
    | first hl => exact ⟨_, rfl, .first (.binary b hl hr)⟩
    | next c hw hl =>
      refine ⟨_, rfl, ?_⟩
      rw [List.append_assoc, List.cons_append]
      exact .next c hw (.binary b hl hr)

theorem Waiting.drain {items : List (Item α)} {operators : List Operator}
    {trees : List (Tree (DenseMatrix α))} (h : Waiting items operators trees) :
    ∃ t, Outline.drain operators trees = some [t] ∧ Grouped .chain items t := by
  induction operators generalizing trees with
  | nil =>
    cases h with
    | first hg => exact ⟨_, rfl, hg⟩
  | cons op operators ih =>
    obtain ⟨joined, hj, hw⟩ := h.join
    obtain ⟨t, ht, hg⟩ := ih hw
    exact ⟨t, by rw [Outline.drain, hj]; exact ht, hg⟩

/-- Where an outline stands before a term: at the very beginning, or after a binary operator. -/
inductive BeforeTerm : List (Item α) → Outline α → Prop where
  | start : BeforeTerm [] empty
  | after (b : Binary) {items : List (Item α)} {operators : List Operator}
      {trees : List (Tree (DenseMatrix α))} (h : Waiting items operators trees) :
      BeforeTerm (items ++ [.operator (.binary b)]) ⟨.binary b :: operators, trees⟩

/-- Where an outline stands after a term. -/
def AfterTerm (items : List (Item α)) (o : Outline α) : Prop :=
  ∃ u? t below, o = hold u? t below ∧ Waiting items below.operators (wrap u? t :: below.trees)

theorem BeforeTerm.free {items : List (Item α)} {o : Outline α} (h : BeforeTerm items o) :
    o.Free := by
  cases h with
  | start => exact free_empty
  | after b hw => exact free_binary b _ _

theorem BeforeTerm.afterTerm {items ys : List (Item α)} {o : Outline α} {u? : Option Unary}
    {t : Tree (DenseMatrix α)} (h : BeforeTerm items o) (hg : Grouped .term ys (wrap u? t)) :
    AfterTerm (items ++ ys) (hold u? t o) := by
  refine ⟨u?, t, o, rfl, ?_⟩
  cases h with
  | start => exact .first (.single hg)
  | after b hw =>
    rw [List.append_assoc]
    exact .next b hw (.single hg)

/-- A unary operator that waits is joined by whatever comes after its operand. -/
theorem AfterTerm.finish {items : List (Item α)} {o : Outline α} (h : AfterTerm items o) :
    ∃ t, o.finish = some t ∧ Grouped .chain items t := by
  obtain ⟨u?, t, below, rfl, hw⟩ := h
  obtain ⟨s, hs, hg⟩ := hw.drain
  exact ⟨s, by rw [Outline.finish, drain_hold, hs], hg⟩

theorem AfterTerm.feed {items : List (Item α)} {o : Outline α} (h : AfterTerm items o)
    (b : Binary) :
    ∃ o', o.feed (.operator (.binary b)) = some o' ∧
      BeforeTerm (items ++ [.operator (.binary b)]) o' := by
  obtain ⟨u?, t, ⟨operators, trees⟩, rfl, hw⟩ := h
  cases u? with
  | some u => exact ⟨_, feed_hold_some u t _ b, .after b hw⟩
  | none =>
    -- the ranks decide whether the binary operator below is joined; either way a chain is left
    cases operators with
    | nil => exact ⟨_, pushOperator_waits (by simp) (by simp [hold]), .after b hw⟩
    | cons top operators =>
      cases hwait : Stacks.waitsAbove (.binary b) top with
      | true =>
        exact ⟨_, pushOperator_waits (by simp) (by simpa [hold] using hwait), .after b hw⟩
      | false =>
        obtain ⟨joined, hj, hw'⟩ := hw.join
        exact ⟨_, pushOperator_joins (by simp) hwait hj, .after b hw'⟩

end Outline

/-! ## §3 Whole expressions -/

def Term.unary? : Term α → Option Unary
  | .operand u? _ => u?
  | .group u? _ => u?

/-- The items of a term after its unary operator. -/
def Term.atomItems : Term α → List (Item α)
  | .operand _ a => [.operand a]
  | .group _ inner => .operator .opening :: (inner.items ++ [.operator .closing])

theorem Term.items_eq (T : Term α) : T.items = Unary.optionItems T.unary? ++ T.atomItems := by
  cases T <;> rw [Term.items] <;> rfl

namespace Outline

theorem grouped_wrap {items : List (Item α)} {t : Tree (DenseMatrix α)} (u? : Option Unary)
    (h : Grouped .atom items t) : Grouped .term (Unary.optionItems u? ++ items) (wrap u? t) := by
  cases u? with
  | none => exact .plain h
  | some u => exact .unary u h

/-- Where a unary operator may wait, a term puts the tree of its atom on top, and its own unary
operator waits. -/
theorem Free.feedAll_term {o : Outline α} (h : o.Free) {T : Term α} {t : Tree (DenseMatrix α)}
    (hfeed : ∀ p, feedAll T.atomItems p = some (p.pushTree t)) :
    feedAll T.items o = some (hold T.unary? t o) := by
  rw [T.items_eq, feedAll_append, h.feedAll_option]
  exact hfeed _

/-- A term takes an outline from before a term to after one. -/
theorem BeforeTerm.afterTerm_term {xs : List (Item α)} {o : Outline α} (h : BeforeTerm xs o)
    {T : Term α} {t : Tree (DenseMatrix α)} (hg : Grouped .atom T.atomItems t) :
    AfterTerm (xs ++ T.items) (hold T.unary? t o) := by
  rw [T.items_eq]
  exact h.afterTerm (grouped_wrap T.unary? hg)

mutual
theorem feedAll_atomItems : ∀ T : Term α,
    ∃ t, Grouped .atom T.atomItems t ∧ ∀ o, feedAll T.atomItems o = some (o.pushTree t)
  | .operand _ a => ⟨.leaf a, .operand a, fun _ => rfl⟩
  | .group _ inner => by
      obtain ⟨o, ho, ha⟩ := feedAll_items inner .start
      obtain ⟨t, ht, hg⟩ := ha.finish
      exact ⟨t, .group hg, feedAll_group (by rw [ofItems?, ho]; exact ht)⟩

theorem feedAll_items : ∀ (c : Chain α) {xs : List (Item α)} {o : Outline α},
    BeforeTerm xs o → ∃ o', feedAll c.items o = some o' ∧ AfterTerm (xs ++ c.items) o'
  | .last T, xs, o, h => by
      obtain ⟨t, hg, hfeed⟩ := feedAll_atomItems T
      rw [Chain.items]
      exact ⟨_, h.free.feedAll_term hfeed, h.afterTerm_term hg⟩
  | .cons T b rest, xs, o, h => by
      obtain ⟨t, hg, hfeed⟩ := feedAll_atomItems T
      have hterm := h.free.feedAll_term hfeed
      obtain ⟨p, hp, hbefore⟩ := (h.afterTerm_term hg).feed b
      obtain ⟨o', ho', hdone⟩ := feedAll_items rest hbefore
      rw [Chain.items]
      refine ⟨o', ?_, ?_⟩
      · rw [feedAll_append, hterm, Option.bind_some, feedAll_cons, hp]
        exact ho'
      · simpa [List.append_assoc] using hdone
end

/-- Every expression of the grammar comes down to one tree, a way to group it. -/
theorem exists_grouped (c : Chain α) :
    ∃ t, ofItems? c.items = some t ∧ Grouped .chain c.items t := by
  obtain ⟨o, ho, ha⟩ := feedAll_items c .start
  obtain ⟨t, ht, hg⟩ := ha.finish
  exact ⟨t, by rw [ofItems?, ho]; exact ht, hg⟩

end Outline

end MatrixCalc
