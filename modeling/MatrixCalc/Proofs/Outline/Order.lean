import MatrixCalc.Proofs.Outline.Value
import Mathlib.Data.List.Count

/-!
# What becomes of the items

No move of an outline loses, doubles or reorders anything. The leaves of its trees, from the tree
that waits longest to the last one, are the operands that arrived, in that order; and an operator
that is applied to operands stands as often in the outline, waiting or in a tree, as it arrived.

How the trees look does not depend on the matrices at their leaves: `Outline.shape` computes the
tree of some items from the operators and the places of the operands alone.
-/

namespace MatrixCalc

universe u v w

theorem Tree.map_map {β : Type u} {γ : Type v} {δ : Type w} (g : γ → δ) (f : β → γ) (t : Tree β) :
    (t.map f).map g = t.map (g ∘ f) := by
  induction t with
  | leaf b => rfl
  | unary op t ih => simp only [map, ih]
  | binary op l r ihl ihr => simp only [map, ihl, ihr]

/-- The operators of a tree are applied to operands. -/
theorem Tree.arity_pos_of_mem_operators {β : Type u} {t : Tree β} {op : Operator}
    (h : op ∈ t.operators) : 0 < op.arity := by
  induction t with
  | leaf b => simp [operators] at h
  | unary u t ih =>
    rcases List.mem_cons.1 h with rfl | h
    · exact Nat.one_pos
    · exact ih h
  | binary b l r ihl ihr =>
    rcases List.mem_append.1 h with h | h
    · exact ihl h
    · rcases List.mem_cons.1 h with rfl | h
      · exact Nat.two_pos
      · exact ihr h

namespace Outline

variable {α : Type u} {β : Type v}

/-! ## §1 Leaves -/

def leaves (o : Outline α) : List (DenseMatrix α) := o.trees.reverse.flatMap Tree.leaves

theorem flatMap_leaves_join {op : Operator} {trees joined : List (Tree (DenseMatrix α))}
    (h : join op trees = some joined) :
    joined.reverse.flatMap Tree.leaves = trees.reverse.flatMap Tree.leaves := by
  match op, trees, h with
  | .unary u, t :: rest, h =>
    cases h
    simp [Tree.leaves]
  | .binary b, right :: left :: rest, h =>
    cases h
    simp [Tree.leaves]

theorem Joins.leaves_eq {o o' : Outline α} (h : Joins o o') : o'.leaves = o.leaves := by
  induction h with
  | refl o => rfl
  | step hj _ ih => exact ih.trans (flatMap_leaves_join hj)

theorem leaves_feed {item : Item α} {o o' : Outline α} (h : o.feed item = some o') :
    o'.leaves = o.leaves ++ item.operand?.toList := by
  rcases feed_cases h with ⟨a, rfl, rfl⟩ | ⟨rfl, hj⟩ | ⟨op, p, -, rfl, hj, rfl⟩
  · simp [leaves, pushTree, Tree.leaves, Item.operand?]
  · exact hj.leaves_eq.trans (List.append_nil _).symm
  · exact hj.leaves_eq.trans (List.append_nil _).symm

theorem leaves_feedAll {items : List (Item α)} {o o' : Outline α}
    (h : o.feedAll items = some o') :
    o'.leaves = o.leaves ++ items.filterMap Item.operand? := by
  induction items generalizing o with
  | nil =>
    cases h
    exact (List.append_nil _).symm
  | cons item items ih =>
    obtain ⟨p, hp, hrest⟩ := Option.bind_eq_some_iff.1 h
    rw [ih hrest, leaves_feed hp, List.append_assoc]
    cases item <;> rfl

/-! ## §2 Operators -/

/-- How often an operator stands in an outline, waiting or in a tree. -/
def count (x : Operator) (o : Outline α) : Nat :=
  o.operators.count x + (o.trees.flatMap Tree.operators).count x

theorem count_flatMap_join (x : Operator) {op : Operator}
    {trees joined : List (Tree (DenseMatrix α))} (h : join op trees = some joined) :
    (joined.flatMap Tree.operators).count x =
      (trees.flatMap Tree.operators).count x + [op].count x := by
  match op, trees, h with
  | .unary u, t :: rest, h =>
    cases h
    simp only [List.flatMap_cons, Tree.operators, List.count_append, List.count_cons,
      List.count_nil]
    omega
  | .binary b, right :: left :: rest, h =>
    cases h
    simp only [List.flatMap_cons, Tree.operators, List.count_append, List.count_cons,
      List.count_nil]
    omega

theorem Joins.count_eq (x : Operator) {o o' : Outline α} (h : Joins o o') :
    o'.count x = o.count x := by
  induction h with
  | refl o => rfl
  | step hj _ ih =>
    rw [ih, count, count, count_flatMap_join x hj]
    simp only [List.count_cons, List.count_nil]
    omega

/-- An operator that takes operands is counted once more when it arrives. -/
theorem count_feed {x : Operator} (hx : 0 < x.arity) {item : Item α} {o o' : Outline α}
    (h : o.feed item = some o') : o'.count x = o.count x + item.operator?.toList.count x := by
  -- brackets take no operands, so neither of them is the operator that is counted
  have hopening : (.opening == x) = false := by
    cases x <;> first | rfl | exact absurd hx (by decide)
  have hclosing : (.closing == x) = false := by
    cases x <;> first | rfl | exact absurd hx (by decide)
  rcases feed_cases h with ⟨a, rfl, rfl⟩ | ⟨rfl, hj⟩ | ⟨op, p, -, rfl, hj, rfl⟩
  · simp [count, pushTree, Tree.operators, Item.operator?]
  · have hc := hj.count_eq x
    simp only [count, List.count_cons, hopening] at hc
    simp [count, Item.operator?, List.count_cons, hclosing, ← hc]
  · have hc := hj.count_eq x
    simp only [count, List.count_cons, Item.operator?, Option.toList, List.count_nil] at hc ⊢
    omega

theorem count_feedAll {x : Operator} (hx : 0 < x.arity) {items : List (Item α)}
    {o o' : Outline α} (h : o.feedAll items = some o') :
    o'.count x = o.count x + (items.filterMap Item.operator?).count x := by
  induction items generalizing o with
  | nil =>
    cases h
    rfl
  | cons item items ih =>
    obtain ⟨p, hp, hrest⟩ := Option.bind_eq_some_iff.1 h
    rw [ih hrest, count_feed hx hp]
    cases item with
    | operator op =>
      simp only [Item.operator?, Option.toList, List.filterMap_cons, List.count_cons,
        List.count_nil]
      omega
    | operand a => rfl

theorem leaves_of_ofItems? {items : List (Item α)} {t : Tree (DenseMatrix α)}
    (h : ofItems? items = some t) : t.leaves = items.filterMap Item.operand? := by
  obtain ⟨o, ho, ht⟩ := Option.bind_eq_some_iff.1 h
  have hl : t.leaves = o.leaves := by simpa [leaves] using (joins_of_finish ht).leaves_eq
  rw [hl, leaves_feedAll ho]
  rfl

theorem operators_of_ofItems? {items : List (Item α)} {t : Tree (DenseMatrix α)}
    (h : ofItems? items = some t) :
    t.operators.Perm ((items.filterMap Item.operator?).filter fun op => 0 < op.arity) := by
  obtain ⟨o, ho, ht⟩ := Option.bind_eq_some_iff.1 h
  refine List.perm_iff_count.2 fun x => ?_
  by_cases hx : 0 < x.arity
  · have hc := (joins_of_finish ht).count_eq x
    rw [count_feedAll hx ho] at hc
    rw [List.count_filter (by simpa using hx)]
    simpa [count, empty] using hc
  · rw [List.count_eq_zero.2 fun hm => hx (Tree.arity_pos_of_mem_operators hm)]
    refine (List.count_eq_zero.2 fun hm => hx ?_).symm
    simpa using (List.mem_filter.1 hm).2

/-! ## §3 Shapes -/

def map (f : DenseMatrix α → DenseMatrix β) (o : Outline α) : Outline β :=
  ⟨o.operators, o.trees.map (Tree.map f)⟩

theorem join_map (f : DenseMatrix α → DenseMatrix β) (op : Operator)
    (trees : List (Tree (DenseMatrix α))) :
    join op (trees.map (Tree.map f)) = (join op trees).map (List.map (Tree.map f)) := by
  match op, trees with
  | .unary u, [] => rfl
  | .unary u, t :: rest => rfl
  | .binary b, [] => rfl
  | .binary b, [t] => rfl
  | .binary b, right :: left :: rest => rfl
  | .opening, _ => rfl
  | .closing, _ => rfl

theorem closeGroup_map (f : DenseMatrix α → DenseMatrix β) (operators : List Operator)
    (trees : List (Tree (DenseMatrix α))) :
    closeGroup operators (trees.map (Tree.map f)) = (closeGroup operators trees).map (map f) := by
  induction operators generalizing trees with
  | nil => rfl
  | cons op operators ih =>
    by_cases hop : op = .opening
    · subst hop
      rfl
    · rw [closeGroup_cons hop, closeGroup_cons hop, join_map]
      cases join op trees with
      | none => rfl
      | some joined => exact ih joined

theorem pushOperator_map (f : DenseMatrix α → DenseMatrix β) (op : Operator) (o : Outline α) :
    (o.map f).pushOperator op = (o.pushOperator op).map (map f) := by
  obtain ⟨operators, trees⟩ := o
  by_cases hop : op = .closing
  · subst hop
    exact closeGroup_map f operators trees
  · simp only [pushOperator, map, if_neg hop]
    cases operators with
    | nil => rfl
    | cons top operators =>
      by_cases hw : Stacks.waitsAbove op top = true
      · simp [hw, map]
      · simp only [hw, join_map, Option.map_map, Bool.false_eq_true, if_false]
        rfl

theorem drain_map (f : DenseMatrix α → DenseMatrix β) (operators : List Operator)
    (trees : List (Tree (DenseMatrix α))) :
    drain operators (trees.map (Tree.map f)) =
      (drain operators trees).map (List.map (Tree.map f)) := by
  induction operators generalizing trees with
  | nil => rfl
  | cons op operators ih =>
    rw [drain, drain, join_map]
    cases join op trees with
    | none => rfl
    | some joined => exact ih joined

theorem finish_map (f : DenseMatrix α → DenseMatrix β) (o : Outline α) :
    (o.map f).finish = o.finish.map (Tree.map f) := by
  simp only [finish, map, drain_map]
  rcases drain o.operators o.trees with _ | _ | ⟨t, _ | ⟨u, rest⟩⟩ <;> rfl

end Outline

def Item.map (f : DenseMatrix α → DenseMatrix β) : Item α → Item β
  | operator op => operator op
  | operand a => operand (f a)

namespace Outline

theorem feedAll_map (f : DenseMatrix α → DenseMatrix β) (items : List (Item α)) (o : Outline α) :
    (o.map f).feedAll (items.map (Item.map f)) = (o.feedAll items).map (map f) := by
  induction items generalizing o with
  | nil => rfl
  | cons item items ih =>
    have hfeed : (o.map f).feed (item.map f) = (o.feed item).map (map f) := by
      cases item with
      | operator op => exact pushOperator_map f op o
      | operand a => rfl
    rw [List.map_cons, feedAll_cons, feedAll_cons, hfeed]
    cases o.feed item with
    | none => rfl
    | some p => exact ih p

theorem ofItems?_map (f : DenseMatrix α → DenseMatrix β) (items : List (Item α)) :
    ofItems? (items.map (Item.map f)) = (ofItems? items).map (Tree.map f) := by
  have h := feedAll_map f items empty
  simp only [ofItems?]
  rw [show (empty : Outline β) = (empty : Outline α).map f from rfl, h]
  cases feedAll items (empty : Outline α) with
  | none => rfl
  | some o => exact finish_map f o

/-- An operator, or the place of an operand with nothing in it. -/
def ofMark : Option Operator → Item Unit
  | some op => .operator op
  | none => .operand ⟨⟨0, 0⟩, #[]⟩

/-- The tree that items with given operators and places of operands come down to, without its
leaves. -/
def shape (marks : List (Option Operator)) : Option (Tree Unit) :=
  (ofItems? (marks.map ofMark)).map (Tree.map fun _ => ())

theorem shape_of_ofItems? {items : List (Item α)} {t : Tree (DenseMatrix α)}
    (h : ofItems? items = some t) :
    shape (items.map Item.operator?) = some (t.map fun _ => ()) := by
  have hmarks : (items.map Item.operator?).map ofMark =
      items.map (Item.map fun _ => ⟨⟨0, 0⟩, #[]⟩) := by
    rw [List.map_map]
    exact List.map_congr_left fun item _ => by cases item <;> rfl
  rw [shape, hmarks, ofItems?_map, h]
  rw [Option.map_some, Option.map_some, Tree.map_map]

/-- Nothing is lost, doubled or reordered: if items have a value, it is the value of a tree whose
leaves are the operands in the order of their arrival and whose operators are those that arrived,
each as often as it did. The shape of that tree is settled by the operators and by the places of the
operands. -/
theorem exists_tree_of_value [Scalar α] {items : List (Item α)} {a : DenseMatrix α}
    (h : (evaluateItems items).result = .ok a) :
    ∃ t : Tree (DenseMatrix α),
      t.value = .ok a ∧
      t.leaves = items.filterMap Item.operand? ∧
      t.operators.Perm ((items.filterMap Item.operator?).filter fun op => 0 < op.arity) ∧
      shape (items.map Item.operator?) = some (t.map fun _ => ()) := by
  obtain ⟨t, ht⟩ := exists_ofItems? h
  exact ⟨t, (result_evaluateItems ht).symm.trans h, leaves_of_ofItems? ht,
    operators_of_ofItems? ht, shape_of_ofItems? ht⟩

/-- After a product the sum on the right is taken first, and the difference on the left last. -/
theorem exists_tree_of_difference :
    let item (x : Float) : Item Float := .operand ⟨⟨1, 1⟩, #[x]⟩
    let items : List (Item Float) := [item 9, .operator (.binary .minus), item 2,
      .operator (.binary .times), item 3, .operator (.binary .plus), item 1]
    (evaluateItems items).result = .ok ⟨⟨1, 1⟩, #[2]⟩ ∧
    ∃ t : Tree (DenseMatrix Float),
      t.value = .ok ⟨⟨1, 1⟩, #[2]⟩ ∧
      t.leaves = [⟨⟨1, 1⟩, #[9]⟩, ⟨⟨1, 1⟩, #[2]⟩, ⟨⟨1, 1⟩, #[3]⟩, ⟨⟨1, 1⟩, #[1]⟩] ∧
      t.operators.Perm [.binary .minus, .binary .times, .binary .plus] ∧
      shape [none, some (.binary .minus), none, some (.binary .times), none,
        some (.binary .plus), none] = some (t.map fun _ => ()) := by
  intro item items
  have h : (evaluateItems items).result = .ok ⟨⟨1, 1⟩, #[2]⟩ := by decide +kernel
  exact ⟨h, exists_tree_of_value h⟩

end Outline

end MatrixCalc
