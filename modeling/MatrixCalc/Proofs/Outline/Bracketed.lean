import MatrixCalc.Proofs.Outline.Groups

/-!
# Fully bracketed trees

The items of a tree have brackets around every operand of a unary operator and around every binary
operation. They come down to the tree itself: no rank has a say in it, since between two brackets at
most one binary operator waits.
-/

namespace MatrixCalc

universe u

namespace Tree

variable {β : Type u}

def unary? : Tree β → Option Unary
  | unary u _ => some u
  | _ => none

/-- The tree without the unary operator at its root. -/
def core : Tree β → Tree β
  | unary _ t => t
  | t => t

end Tree

namespace Outline

variable {α : Type u}

@[simp] theorem wrap_core (t : Tree (DenseMatrix α)) : wrap t.unary? t.core = t := by
  cases t <;> rfl

theorem ofItems?_of_hold {items : List (Item α)} {t : Tree (DenseMatrix α)}
    (h : empty.feedAll items = some (hold t.unary? t.core empty)) : ofItems? items = some t := by
  rw [ofItems?, h, Option.bind_some, finish, drain_hold, wrap_core]
  rfl

/-- A binary operator that comes when one operand is there has that operand on its left. -/
theorem feed_hold_empty (t : Tree (DenseMatrix α)) (b : Binary) :
    (hold t.unary? t.core empty).feed (.operator (.binary b)) = some ⟨[.binary b], [t]⟩ := by
  cases t with
  | unary u t => exact feed_hold_some u t empty b
  | leaf a => rfl
  | binary c l r => rfl

/-- Where a unary operator may wait, the items of a tree put that tree on top, except that the
operator at its root waits for what comes next. -/
theorem feedAll_tree (t : Tree (DenseMatrix α)) {o : Outline α} (ho : o.Free) :
    o.feedAll t.items = some (hold t.unary? t.core o) := by
  induction t generalizing o with
  | leaf a => rfl
  | unary u t ih =>
    have hgroup := feedAll_group (ofItems?_of_hold (ih free_empty))
    rw [Tree.items, feedAll_cons, ho.feed u, Option.bind_some, hgroup]
    rfl
  | binary b l r ihl ihr =>
    -- above the opening bracket there is only the left operand when the right one comes
    have hr : feedAll r.items ⟨[.binary b], [l]⟩ = some (hold r.unary? r.core ⟨[.binary b], [l]⟩) :=
      ihr (free_binary b [] [l])
    have hinner : ofItems? (l.items ++ .operator (.binary b) :: r.items) =
        some (.binary b l r) := by
      rw [ofItems?, feedAll_append, ihl free_empty, Option.bind_some, feedAll_cons,
        feed_hold_empty, Option.bind_some, hr, Option.bind_some, finish, drain_hold, wrap_core]
      rfl
    have hgroup := feedAll_group hinner o
    rw [List.append_assoc, List.cons_append] at hgroup
    exact hgroup

/-- A tree written with all its brackets is read as that tree. -/
theorem ofItems?_items (t : Tree (DenseMatrix α)) : ofItems? t.items = some t :=
  ofItems?_of_hold (feedAll_tree t free_empty)

end Outline

end MatrixCalc
