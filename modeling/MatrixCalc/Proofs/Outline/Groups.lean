import MatrixCalc.Expression.Grammar
import MatrixCalc.Proofs.Outline.Value

/-!
# Groups

What is between an opening bracket and its partner comes down to the tree that it comes down to on
its own, whatever waits below: above an opening bracket the moves are those of an outline where
nothing waits, and the closing bracket joins in the order in which the end of an expression does.
-/

namespace MatrixCalc

universe u

namespace Outline

variable {α : Type u}

/-! ## §1 Above an opening bracket -/

/-- The outline above an opening bracket that waits on top of another outline. -/
def onto (base o : Outline α) : Outline α :=
  ⟨o.operators ++ .opening :: base.operators, o.trees ++ base.trees⟩

theorem join_append {op : Operator} {trees joined : List (Tree (DenseMatrix α))}
    (h : join op trees = some joined) (below : List (Tree (DenseMatrix α))) :
    join op (trees ++ below) = some (joined ++ below) := by
  match op, trees, h with
  | .unary u, t :: rest, h =>
    cases h
    rfl
  | .binary b, right :: left :: rest, h =>
    cases h
    rfl

theorem closeGroup_append {operators : List Operator} {trees : List (Tree (DenseMatrix α))}
    {o' : Outline α} (h : closeGroup operators trees = some o') (rest : List Operator)
    (below : List (Tree (DenseMatrix α))) :
    closeGroup (operators ++ rest) (trees ++ below) =
      some ⟨o'.operators ++ rest, o'.trees ++ below⟩ := by
  induction operators generalizing trees with
  | nil => cases h
  | cons op operators ih =>
    by_cases hop : op = .opening
    · subst hop
      cases h
      rfl
    · rw [closeGroup_cons hop] at h
      obtain ⟨joined, hj, hc⟩ := Option.bind_eq_some_iff.1 h
      rw [List.cons_append, closeGroup_cons hop, join_append hj below]
      exact ih hc

/-- The end of an expression joins what a closing bracket joins. -/
theorem closeGroup_of_drain {operators : List Operator} {trees trees' : List (Tree (DenseMatrix α))}
    (h : drain operators trees = some trees') (rest : List Operator)
    (below : List (Tree (DenseMatrix α))) :
    closeGroup (operators ++ .opening :: rest) (trees ++ below) =
      some ⟨rest, trees' ++ below⟩ := by
  induction operators generalizing trees with
  | nil =>
    cases h
    rfl
  | cons op operators ih =>
    obtain ⟨joined, hj, hd⟩ := Option.bind_eq_some_iff.1 h
    have hop : op ≠ .opening := by
      rintro rfl
      cases hj
    rw [List.cons_append, closeGroup_cons hop, join_append hj below]
    exact ih hd

theorem pushOperator_onto {op : Operator} {o o' : Outline α} (h : o.pushOperator op = some o')
    (base : Outline α) : (onto base o).pushOperator op = some (onto base o') := by
  rcases pushOperator_cases h with
    ⟨rfl, hc⟩ | ⟨hop, hw, rfl⟩ | ⟨hop, top, operators, joined, ho, hw, hj, rfl⟩
  · exact closeGroup_append hc _ _
  · refine pushOperator_waits hop fun top htop => ?_
    -- with nothing waiting in `o`, the bracket is on top, and everything may wait above it
    cases hops : o.operators with
    | nil =>
      rw [onto, hops] at htop
      cases htop
      simp [Stacks.waitsAbove]
    | cons first operators =>
      rw [onto, hops] at htop
      exact hw top (by rw [hops]; exact htop)
  · obtain ⟨operators', trees⟩ := o
    cases ho
    exact pushOperator_joins hop hw (join_append hj base.trees)

theorem feedAll_onto {items : List (Item α)} {o o' : Outline α} (h : o.feedAll items = some o')
    (base : Outline α) : (onto base o).feedAll items = some (onto base o') := by
  induction items generalizing o with
  | nil =>
    cases h
    rfl
  | cons item items ih =>
    obtain ⟨p, hp, hrest⟩ := Option.bind_eq_some_iff.1 h
    have hfeed : (onto base o).feed item = some (onto base p) := by
      cases item with
      | operator op => exact pushOperator_onto hp base
      | operand a =>
        cases hp
        rfl
    rw [feedAll_cons, hfeed]
    exact ih hrest

/-- A group is one tree on top of whatever waited before it. -/
theorem feedAll_group {items : List (Item α)} {t : Tree (DenseMatrix α)}
    (h : ofItems? items = some t) (o : Outline α) :
    o.feedAll (.operator .opening :: (items ++ [.operator .closing])) = some (o.pushTree t) := by
  obtain ⟨last, hlast, ht⟩ := Option.bind_eq_some_iff.1 h
  have hopen : o.feed (.operator .opening) = some (onto o empty) :=
    pushOperator_waits (by decide) fun top _ => by simp [Stacks.waitsAbove]
  have hclose : (onto o last).feed (.operator .closing) = some (o.pushTree t) :=
    closeGroup_of_drain (drain_of_finish ht) o.operators o.trees
  rw [feedAll_cons, hopen, Option.bind_some, feedAll_append, feedAll_onto hlast, Option.bind_some,
    feedAll_cons, hclose]
  rfl

/-! ## §2 A unary operator before its operand -/

/-- Whatever unary operator comes next may wait. -/
def Free (o : Outline α) : Prop :=
  ∀ u, ∀ top ∈ o.operators.head?, Stacks.waitsAbove (.unary u) top = true

theorem free_empty : (empty : Outline α).Free := by
  intro u top htop
  cases htop

theorem free_binary (b : Binary) (operators : List Operator) (trees : List (Tree (DenseMatrix α))) :
    (Outline.mk (.binary b :: operators) trees).Free := by
  rintro u top ⟨⟩
  cases u <;> cases b <;> rfl

theorem Free.feed {o : Outline α} (h : o.Free) (u : Unary) :
    o.feed (.operator (.unary u)) = some { o with operators := .unary u :: o.operators } :=
  pushOperator_waits (by simp) (h u)

theorem Free.feedAll_option {o : Outline α} (h : o.Free) (u? : Option Unary) :
    o.feedAll (Unary.optionItems u?) =
      some ⟨u?.toList.map Operator.unary ++ o.operators, o.trees⟩ := by
  cases u? with
  | none => rfl
  | some u =>
    show (o.feed _).bind (feedAll []) = _
    rw [h.feed u]
    rfl

def wrap : Option Unary → Tree (DenseMatrix α) → Tree (DenseMatrix α)
  | none, t => t
  | some u, t => .unary u t

/-- An operand arrived, and the unary operator before it, if there is one, waits still. -/
def hold (u? : Option Unary) (t : Tree (DenseMatrix α)) (o : Outline α) : Outline α :=
  ⟨u?.toList.map Operator.unary ++ o.operators, t :: o.trees⟩

theorem drain_hold (u? : Option Unary) (t : Tree (DenseMatrix α)) (o : Outline α) :
    drain (hold u? t o).operators (hold u? t o).trees =
      drain o.operators (wrap u? t :: o.trees) := by
  cases u? <;> rfl

/-- A unary operator that waits is applied as soon as a binary operator comes. -/
theorem feed_hold_some (u : Unary) (t : Tree (DenseMatrix α)) (o : Outline α) (b : Binary) :
    (hold (some u) t o).feed (.operator (.binary b)) =
      some ⟨.binary b :: o.operators, .unary u t :: o.trees⟩ := by
  have hjoins : Stacks.waitsAbove (.binary b) (.unary u) = false := by
    cases u <;> cases b <;> rfl
  exact pushOperator_joins (by simp) hjoins rfl

end Outline

/-! ## §3 Groups on the stacks -/

namespace Stacks

variable {α : Type u} [Scalar α]

/-- A group arrives as its tree would, if that has a value; else some move fails. -/
theorem result_feedAll_tree {items : List (Item α)} {t : Tree (DenseMatrix α)}
    (ht : Outline.ofItems? items = some t) (s : Stacks α) :
    (s.feedAll (.operator .opening :: (items ++ [.operator .closing]))).toLogged.result =
      t.value.map fun a => { s with operands := a :: s.operands } := by
  -- the stacks are those of an outline in which every tree is a leaf
  let o : Outline α := ⟨s.operators, s.operands.map .leaf⟩
  have ho : o.realize = .ok s := by rw [Outline.realize, Tree.values_map_leaf]; rfl
  have hgroup := Outline.realize_feedAll (Outline.feedAll_group ht o)
  rw [ho] at hgroup
  refine hgroup.symm.trans ?_
  rw [Outline.realize, Outline.pushTree, Tree.values, Tree.values_map_leaf]
  cases t.value <;> rfl

/-- A group that has a value on its own arrives as that one operand would: no move fails, and the
stacks are left as if the operand had been pushed. -/
theorem result_feedAll_group {items : List (Item α)} {a : DenseMatrix α}
    (h : (evaluateItems items).result = .ok a) (s : Stacks α) :
    (s.feedAll (.operator .opening :: (items ++ [.operator .closing]))).toLogged.result =
      .ok { s with operands := a :: s.operands } := by
  obtain ⟨t, ht⟩ := Outline.exists_ofItems? h
  have hvalue : t.value = .ok a := (Outline.result_evaluateItems ht).symm.trans h
  rw [result_feedAll_tree ht, hvalue]
  rfl

end Stacks

end MatrixCalc
