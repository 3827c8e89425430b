import Mathlib.Data.List.Forall2
import MatrixCalc.Proofs.Outline.Counting

/-!
# Events

What happens in a run that does not fail: items arrive, and operators that wait are reduced. Which
operator is reduced when is a matter of the operators alone, so the events of a run are computed
from its items (`Item.events`), with the place of each operator among the items kept beside it.

The events are as they should be: the items arrive in their order, each operator that takes operands
is reduced once, no bracket ever is, and nothing is reduced before it arrived (`arrivals_events`,
`perm_reductions`, `arrival_mem_of_reduction`). And they show in the journal, whose notes of middle
level are one for each event, in that order (`shows_evaluateItems`).
-/

namespace MatrixCalc

universe u

/-! ## §1 The events of some items -/

/-- The item at a place arrives, or the operator at a place is reduced. -/
inductive Event where
  | arrival (place : Nat)
  | reduction (place : Nat)
deriving DecidableEq, Repr

namespace Event

def arrival? : Event → Option Nat
  | arrival place => some place
  | reduction _ => none

def reduction? : Event → Option Nat
  | arrival _ => none
  | reduction place => some place

end Event

structure Waiter where
  op : Operator
  place : Nat
deriving Repr

namespace Waiter

def reduction (w : Waiter) : Event := .reduction w.place

/-- How many of the waiting operators are reduced as another arrives: all above the last opening
bracket, or the last one unless it may be waited upon. -/
def due (op : Operator) (waiting : List Waiter) : Nat :=
  if op = .closing then (waiting.takeWhile fun w => w.op != .opening).length
  else if waiting.head?.any fun top => !Stacks.waitsAbove op top.op then 1 else 0

/-- The waiting operators that are reduced as another arrives. -/
def reduced (op : Operator) (waiting : List Waiter) : List Waiter := waiting.take (due op waiting)

def after (op : Operator) (place : Nat) (waiting : List Waiter) : List Waiter :=
  let below := waiting.drop (due op waiting)
  if op = .closing then below.tail else ⟨op, place⟩ :: below

end Waiter

namespace Item

variable {α : Type u}

def reduced (item : Item α) (waiting : List Waiter) : List Waiter :=
  match item with
  | operator op => Waiter.reduced op waiting
  | operand _ => []

def leaves (item : Item α) (place : Nat) (waiting : List Waiter) : List Waiter :=
  match item with
  | operator op => Waiter.after op place waiting
  | operand _ => waiting

/-- The events of some items, the first of which has a given place, with some operators waiting. In
the end all that waits is reduced. -/
def eventsFrom : Nat → List Waiter → List (Item α) → List Event
  | _, waiting, [] => waiting.map Waiter.reduction
  | place, waiting, item :: items =>
    .arrival place :: ((item.reduced waiting).map Waiter.reduction ++
      eventsFrom (place + 1) (item.leaves place waiting) items)

def events (items : List (Item α)) : List Event := eventsFrom 0 [] items

def isApplied : Item α → Bool
  | operator op => op.takesOperands
  | operand _ => false

def appliedPlaces (items : List (Item α)) : List Nat :=
  (List.range items.length).filter fun place => (items[place]?).any isApplied

end Item

/-! ## §2 What an arrival does to the operators that wait -/

namespace Waiter

variable {op : Operator} {place : Nat} {waiting : List Waiter}

/-- Operators that wait may be given any places. -/
theorem exists_of_operators (operators : List Operator) :
    ∃ waiting : List Waiter, operators = waiting.map Waiter.op :=
  ⟨operators.map (Waiter.mk · 0), by rw [List.map_map]; exact (List.map_id _).symm⟩

theorem mem_after {w : Waiter} (h : w ∈ after op place waiting) :
    w ∈ waiting ∨ w = ⟨op, place⟩ := by
  unfold after at h
  dsimp only at h
  split at h
  · exact .inl (List.mem_of_mem_drop (List.mem_of_mem_tail h))
  · rcases List.mem_cons.1 h with rfl | h
    · exact .inr rfl
    · exact .inl (List.mem_of_mem_drop h)

/-- All that an arrival does: a closing bracket reduces what waits above the last opening one and
takes that away, and any other operator reduces at most the last one and then waits. -/
theorem arrive_cases {v : List Operator} (h : op.arrive (waiting.map Waiter.op) = some v)
    (place : Nat) :
    (op = .closing ∧ ∃ above w below, (∀ x ∈ above, x.op ≠ .opening) ∧ w.op = .opening ∧
      waiting = above ++ w :: below ∧ v = below.map Waiter.op ∧
      reduced op waiting = above ∧ after op place waiting = below) ∨
    (op ≠ .closing ∧ v = op :: waiting.map Waiter.op ∧
      (∀ top ∈ (waiting.map Waiter.op).head?, Stacks.waitsAbove op top = true) ∧
      reduced op waiting = [] ∧ after op place waiting = ⟨op, place⟩ :: waiting) ∨
    (op ≠ .closing ∧ ∃ top below, top.op ≠ .opening ∧ waiting = top :: below ∧
      v = op :: below.map Waiter.op ∧ Stacks.waitsAbove op top.op = false ∧
      reduced op waiting = [top] ∧ after op place waiting = ⟨op, place⟩ :: below) := by
  by_cases hop : op = .closing
  · subst hop
    obtain ⟨operators, hmem, hw⟩ := Operator.dropGroup_eq_some h
    obtain ⟨above, rest, rfl, rfl, hrest⟩ := List.map_eq_append_iff.1 hw
    obtain ⟨w, below, rfl, hopen, rfl⟩ := List.map_eq_cons_iff.1 hrest
    have habove : ∀ x ∈ above, x.op ≠ .opening := fun x hx heq =>
      hmem (heq ▸ List.mem_map_of_mem hx)
    have hdue : due .closing (above ++ w :: below) = above.length := by
      unfold due
      rw [if_pos rfl, List.takeWhile_append_of_pos (by simpa using habove),
        List.takeWhile_cons_of_neg (by simp [hopen]), List.append_nil]
    refine .inl ⟨rfl, above, w, below, habove, hopen, rfl, rfl, ?_, ?_⟩
    · rw [reduced, hdue, List.take_left]
    · simp only [after, hdue, List.drop_left, if_pos, List.tail_cons]
  refine .inr ?_
  by_cases hwaits : ∀ top ∈ (waiting.map Waiter.op).head?, Stacks.waitsAbove op top = true
  · have hdue : due op waiting = 0 := by
      unfold due
      rw [if_neg hop, if_neg]
      cases waiting <;> simp_all
    refine .inl ⟨hop, Option.some.inj (h.symm.trans (Operator.arrive_waits hop hwaits)), hwaits,
      ?_, ?_⟩
    · rw [reduced, hdue, List.take_zero]
    · simp only [after, hdue, List.drop_zero, if_neg hop]
  · cases waiting with
    | nil => exact absurd (by simp) hwaits
    | cons top below =>
      have hbinds : Stacks.waitsAbove op top.op = false := by simpa using hwaits
      have hdue : due op (top :: below) = 1 := by
        unfold due
        rw [if_neg hop, if_pos (by simp [hbinds])]
      have hopen : top.op ≠ .opening := by
        intro heq
        simp [heq, Stacks.waitsAbove] at hbinds
      refine .inr ⟨hop, top, below, hopen, rfl,
        Option.some.inj (h.symm.trans (Operator.arrive_pops hop hbinds)), hbinds, ?_, ?_⟩
      · rw [reduced, hdue, List.take_one, List.head?_cons, Option.toList_some]
      · simp only [after, hdue, List.drop_one, List.tail_cons, if_neg hop]

theorem opening_not_mem_map (h : ∀ x ∈ waiting, x.op ≠ .opening) :
    .opening ∉ waiting.map Waiter.op := by
  intro hmem
  obtain ⟨x, hx, heq⟩ := List.mem_map.1 hmem
  exact h x hx heq

/-- The places have no part in which operators wait. -/
theorem operators_after {v : List Operator} (h : op.arrive (waiting.map Waiter.op) = some v)
    (place : Nat) : v = (after op place waiting).map Waiter.op := by
  rcases arrive_cases h place with
    ⟨-, above, w, below, -, -, -, hv, -, hafter⟩ | ⟨-, hv, -, -, hafter⟩ |
    ⟨-, top, below, -, -, hv, -, -, hafter⟩
  all_goals
    rw [hafter]
    exact hv

/-- The places of the operators that are still to be reduced; an opening bracket is not. -/
def owed (waiting : List Waiter) : List Nat :=
  (waiting.filter fun w => w.op != .opening).map Waiter.place

theorem owed_append (xs ys : List Waiter) : owed (xs ++ ys) = owed xs ++ owed ys := by
  rw [owed, List.filter_append, List.map_append]
  rfl

theorem owed_of_ne_opening (h : ∀ w ∈ waiting, w.op ≠ .opening) :
    owed waiting = waiting.map Waiter.place := by
  rw [owed, List.filter_eq_self.2 (by simpa using h)]

theorem owed_cons_opening {w : Waiter} (h : w.op = .opening) (waiting : List Waiter) :
    owed (w :: waiting) = owed waiting := by
  rw [owed, List.filter_cons_of_neg (by simp [h])]
  rfl

/-- Of the operators that wait or arrive, those are reduced or still to be reduced that take
operands. -/
theorem perm_owed_after {v : List Operator} (h : op.arrive (waiting.map Waiter.op) = some v)
    (place : Nat) :
    ((reduced op waiting).map Waiter.place ++ owed (after op place waiting)).Perm
      (owed waiting ++ if op.takesOperands then [place] else []) := by
  have harrived (hop : op ≠ .closing) (below : List Waiter) :
      owed (⟨op, place⟩ :: below) = (if op.takesOperands then [place] else []) ++ owed below := by
    cases op with
    | closing => exact absurd rfl hop
    | opening => rfl
    | unary u => rfl
    | binary b => rfl
  rcases arrive_cases h place with
    ⟨rfl, above, w, below, habove, hopen, rfl, -, hreduced, hafter⟩ |
    ⟨hop, -, -, hreduced, hafter⟩ | ⟨hop, top, below, hopen, rfl, -, -, hreduced, hafter⟩
  · rw [hreduced, hafter, owed_append, owed_of_ne_opening habove, owed_cons_opening hopen]
    exact .of_eq (List.append_nil _).symm
  · rw [hreduced, hafter, harrived hop, List.map_nil, List.nil_append]
    exact List.perm_append_comm
  · have htop : owed (top :: below) = top.place :: owed below := by
      rw [← List.singleton_append, owed_append, owed_of_ne_opening (by simpa using hopen)]
      rfl
    rw [hreduced, hafter, harrived hop, htop, List.map_singleton, List.singleton_append,
      List.cons_append]
    exact List.perm_append_comm.cons top.place

end Waiter

/-! ## §3 The events are as they should be -/

namespace Item

variable {α : Type u}

@[simp] theorem filterMap_arrival?_reductions (ws : List Waiter) :
    (ws.map Waiter.reduction).filterMap Event.arrival? = [] := by
  simp [List.filterMap_map, Function.comp_def, Waiter.reduction, Event.arrival?]

@[simp] theorem filterMap_reduction?_reductions (ws : List Waiter) :
    (ws.map Waiter.reduction).filterMap Event.reduction? = ws.map Waiter.place := by
  simp [List.filterMap_map, Function.comp_def, Waiter.reduction, Event.reduction?]

/-- The items arrive in their order. -/
theorem arrivals_eventsFrom (place : Nat) (waiting : List Waiter) (items : List (Item α)) :
    (eventsFrom place waiting items).filterMap Event.arrival? =
      List.range' place items.length := by
  induction items generalizing place waiting with
  | nil => exact filterMap_arrival?_reductions waiting
  | cons item items ih =>
    have hlater := ih (place + 1) (item.leaves place waiting)
    simp only [eventsFrom, List.filterMap_cons, Event.arrival?, List.filterMap_append,
      filterMap_arrival?_reductions, hlater, List.nil_append, List.length_cons, List.range'_succ]

theorem mem_leaves {item : Item α} {place : Nat} {waiting : List Waiter} {w : Waiter}
    (h : w ∈ item.leaves place waiting) :
    w ∈ waiting ∨ item = .operator w.op ∧ w.place = place := by
  cases item with
  | operand a => exact .inl h
  | operator op =>
    rcases Waiter.mem_after h with hold | rfl
    · exact .inl hold
    · exact .inr ⟨rfl, rfl⟩

/-- What is reduced waited in the beginning or has arrived before. -/
theorem arrival_mem_or_mem {items : List (Item α)} {place : Nat} {waiting : List Waiter}
    {pre : List Event} {j : Nat} (hpre : pre <+: eventsFrom place waiting items)
    (hj : .reduction j ∈ pre) : .arrival j ∈ pre ∨ j ∈ waiting.map Waiter.place := by
  have hplace {ws : List Waiter} (h : .reduction j ∈ ws.map Waiter.reduction) :
      j ∈ ws.map Waiter.place := by
    obtain ⟨w, hw, hreduction⟩ := List.mem_map.1 h
    cases hreduction
    exact List.mem_map_of_mem hw
  induction items generalizing place waiting pre with
  | nil => exact .inr (hplace (hpre.subset hj))
  | cons item items ih =>
    cases pre with
    | nil => cases hj
    | cons e pre =>
      rw [eventsFrom] at hpre
      obtain ⟨rfl, post, hpost⟩ := List.cons_prefix_cons.1 hpre
      replace hj : .reduction j ∈ pre := by simpa using hj
      have hreduced : (item.reduced waiting).map Waiter.place ⊆ waiting.map Waiter.place := by
        cases item with
        | operand a => exact List.nil_subset _
        | operator op => exact List.map_subset _ (List.take_subset _ _)
      rcases List.append_eq_append_iff.1 hpost with ⟨more, hmore, -⟩ | ⟨more, rfl, hmore⟩
      · exact .inr (hreduced (hplace (hmore ▸ List.mem_append_left _ hj)))
      rcases List.mem_append.1 hj with hj | hj
      · exact .inr (hreduced (hplace hj))
      rcases ih ⟨post, hmore.symm⟩ hj with harrival | hwaits
      · exact .inl (List.mem_cons_of_mem _ (List.mem_append_right _ harrival))
      · -- an operator that waits now waited before or has just arrived
        obtain ⟨w, hw, rfl⟩ := List.mem_map.1 hwaits
        rcases mem_leaves hw with hold | hnew
        · exact .inr (List.mem_map_of_mem hold)
        · exact .inl (hnew.2 ▸ List.mem_cons_self)

/-- The place of an item that is to be reduced some time. -/
def owes (item : Item α) (place : Nat) : List Nat := if item.isApplied then [place] else []

theorem perm_owed_leaves {item : Item α} {waiting : List Waiter} {v : List Operator}
    (h : item.arrive (waiting.map Waiter.op) = some v) (place : Nat) :
    ((item.reduced waiting).map Waiter.place ++ Waiter.owed (item.leaves place waiting)).Perm
      (Waiter.owed waiting ++ item.owes place) ∧ v = (item.leaves place waiting).map Waiter.op := by
  cases item with
  | operand a =>
    cases h
    exact ⟨.of_eq (List.append_nil _).symm, rfl⟩
  | operator op => exact ⟨Waiter.perm_owed_after h place, Waiter.operators_after h place⟩

theorem getElem?_and_drop_of_drop_eq_cons {all items : List (Item α)} {item : Item α}
    {place : Nat} (h : all.drop place = item :: items) :
    all[place]? = some item ∧ all.drop (place + 1) = items := by
  constructor
  · rw [← List.head?_drop, h, List.head?_cons]
  · rw [← List.tail_drop, h, List.tail_cons]

/-- What is reduced is what waited or takes operands, each once. -/
theorem perm_reductions_eventsFrom {all items : List (Item α)} {place : Nat}
    (waiting : List Waiter) {v : List Operator} (hdrop : all.drop place = items)
    (h : waitingAfter items (waiting.map Waiter.op) = some v) (hv : .opening ∉ v) :
    ((eventsFrom place waiting items).filterMap Event.reduction?).Perm
      (Waiter.owed waiting ++
        (List.range' place items.length).filter fun j => (all[j]?).any isApplied) := by
  induction items generalizing place waiting with
  | nil =>
    cases h
    have hnone : ∀ w ∈ waiting, w.op ≠ .opening := fun w hw heq =>
      hv (heq ▸ List.mem_map_of_mem hw)
    rw [eventsFrom, filterMap_reduction?_reductions, Waiter.owed_of_ne_opening hnone]
    exact .of_eq (List.append_nil _).symm
  | cons item items ih =>
    obtain ⟨u, hu, hrest⟩ := Option.bind_eq_some_iff.1 h
    obtain ⟨hperm, rfl⟩ := perm_owed_leaves hu place
    obtain ⟨hhere, hnext⟩ := getElem?_and_drop_of_drop_eq_cons hdrop
    have hsplit : (List.range' place (item :: items).length).filter
          (fun j => (all[j]?).any isApplied) =
        item.owes place ++ (List.range' (place + 1) items.length).filter
          (fun j => (all[j]?).any isApplied) := by
      rw [List.length_cons, List.range'_succ, List.filter_cons, hhere, Option.any_some, owes]
      cases item.isApplied <;> rfl
    rw [eventsFrom, List.filterMap_cons_none rfl, List.filterMap_append,
      filterMap_reduction?_reductions, hsplit, ← List.append_assoc]
    refine ((ih _ hnext hrest).append_left _).trans ?_
    rw [← List.append_assoc]
    exact hperm.append_right _

theorem arrivals_events (items : List (Item α)) :
    (events items).filterMap Event.arrival? = List.range items.length := by
  rw [events, arrivals_eventsFrom, List.range_eq_range']

/-- What is reduced has arrived before. -/
theorem arrival_mem_of_reduction {items : List (Item α)} (past : List Event)
    (hpast : past <+: events items) (place : Nat) (h : .reduction place ∈ past) :
    .arrival place ∈ past := by
  rcases arrival_mem_or_mem hpast h with harrival | hwaits
  · exact harrival
  · cases hwaits

end Item

/-! ## §4 The moves of the stacks -/

theorem Outcome.toLogged_after {σ : Type u} (notes : List Note) (x : Outcome σ) :
    (x.after notes).toLogged = x.toLogged.after notes := rfl

theorem Outcome.notes_andThen {σ : Type u} {x : Outcome σ} (h : x.fault? = none)
    (f : σ → Outcome σ) : (x.andThen f).notes = x.notes ++ (f x.state).notes := by
  unfold andThen
  rw [h]
  rfl

def Item.note {α : Type u} : Item α → Note
  | .operator op => .operator op
  | .operand a => .operand a.toShape

namespace Stacks

variable {α : Type u} [Scalar α]

/-- Draining is one reduction after the other, and none of them is that of an opening bracket. -/
theorem drain_cons_eq_ok {op : Operator} {operators : List Operator}
    {as bs : List (DenseMatrix α)} (h : (drain (op :: operators) as).toLogged.result = .ok bs) :
    op ≠ .opening ∧ ∃ cs, (reduce op as).toLogged.result = .ok cs ∧
      (drain operators cs).toLogged.result = .ok bs ∧
      (drain (op :: operators) as).notes = (reduce op as).notes ++ (drain operators cs).notes := by
  have hop : op ≠ .opening := by
    rintro rfl
    cases h
  rw [result_drain_cons hop] at h
  obtain ⟨cs, hreduce, hrest⟩ := bind_eq_ok_iff.1 h
  obtain ⟨hfault, hstate⟩ := Outcome.result_eq_ok_iff.1 hreduce
  refine ⟨hop, cs, hreduce, hrest, ?_⟩
  rw [drain_cons hop, Outcome.notes_andThen hfault, hstate]

/-- Closing a group drains what waits above its opening bracket. -/
theorem toLogged_closeGroup {above : List Operator} (habove : .opening ∉ above)
    (below : List Operator) (as : List (DenseMatrix α)) :
    (closeGroup (above ++ .opening :: below) as).toLogged =
      ((drain above as).map (mk below)).toLogged := by
  induction above generalizing as with
  | nil => rfl
  | cons op above ih =>
    obtain ⟨hop, hrest⟩ := List.ne_and_not_mem_of_not_mem_cons habove
    rw [List.cons_append, closeGroup_cons (Ne.symm hop), drain_cons (Ne.symm hop)]
    obtain ⟨notes, bs, fault?⟩ := reduce op as
    cases fault? with
    | some f => rfl
    | none => exact congrArg (Logged.after notes) (ih hrest bs)

/-- The arrival of an item is a note on it, and then the operators that it reduces are drained. -/
theorem toLogged_feed {item : Item α} {waiting : List Waiter} {v : List Operator}
    (h : item.arrive (waiting.map Waiter.op) = some v) (place : Nat) (as : List (DenseMatrix α)) :
    ((mk (waiting.map Waiter.op) as).feed item).toLogged =
      (((drain ((item.reduced waiting).map Waiter.op) as).map fun bs =>
        mk ((item.leaves place waiting).map Waiter.op) (item.operand?.toList ++ bs)).after
          [item.note]).toLogged := by
  cases item with
  | operand a => rfl
  | operator op =>
    rw [feed, pushOperator, Outcome.toLogged_after, Outcome.toLogged_after]
    refine congrArg (Logged.after [.operator op]) ?_
    show _ = ((drain ((Waiter.reduced op waiting).map Waiter.op) as).map fun bs =>
        mk ((Waiter.after op place waiting).map Waiter.op) bs).toLogged
    rcases Waiter.arrive_cases h place with
      ⟨rfl, above, w, below, habove, hopen, rfl, -, hreduced, hafter⟩ |
      ⟨hop, -, hwaits, hreduced, hafter⟩ |
      ⟨hop, top, below, hopen, rfl, -, hbinds, hreduced, hafter⟩
    · rw [hreduced, hafter, if_pos rfl, List.map_append, List.map_cons, hopen]
      exact toLogged_closeGroup (Waiter.opening_not_mem_map habove) _ as
    · rw [hreduced, hafter, if_neg hop]
      cases waiting with
      | nil => rfl
      | cons top below =>
        have hw : waitsAbove op top.op = true := hwaits top.op rfl
        simp only [List.map_cons, hw, if_true]
        rfl
    · rw [hreduced, hafter, if_neg hop]
      simp only [List.map_cons, List.map_nil, hbinds, Bool.false_eq_true, if_false]
      rw [drain_cons hopen]
      obtain ⟨notes, bs, fault?⟩ := reduce top.op as
      cases fault? with
      | some f => rfl
      | none =>
        simp [Outcome.andThen, Outcome.map, Outcome.after, Outcome.toLogged, Outcome.done, drain]

/-- An arrival that does not fail: what is drained, the stacks after it and the notes. -/
theorem feed_eq_ok {item : Item α} {waiting : List Waiter} {as : List (DenseMatrix α)}
    {s : Stacks α} (h : ((mk (waiting.map Waiter.op) as).feed item).toLogged.result = .ok s)
    (place : Nat) :
    ∃ bs, (drain ((item.reduced waiting).map Waiter.op) as).toLogged.result = .ok bs ∧
      s = ⟨(item.leaves place waiting).map Waiter.op, item.operand?.toList ++ bs⟩ ∧
      ((mk (waiting.map Waiter.op) as).feed item).notes =
        item.note :: (drain ((item.reduced waiting).map Waiter.op) as).notes := by
  have heq := toLogged_feed (operators_feed (Outcome.result_eq_ok_iff.1 h).1) place as
  rw [heq, Outcome.result_after, Outcome.result_map] at h
  obtain ⟨bs, hdrain, rfl⟩ := map_eq_ok_iff.1 h
  exact ⟨bs, hdrain, rfl, congrArg Logged.notes heq⟩

end Stacks

/-! ## §5 The events in the journal -/

def Note.ofLevel (level : Level) (notes : List Note) : List Note :=
  notes.filter fun note => note.level = level

theorem Note.ofLevel_append (level : Level) (xs ys : List Note) :
    ofLevel level (xs ++ ys) = ofLevel level xs ++ ofLevel level ys := List.filter_append _ _

/-- Whether a note is written while an operator is reduced. -/
def Note.isWork : Note → Bool
  | reduced _ _ | echelonPivot _ _ _ | reducedPivot _ _ _ | singular _ => true
  | _ => false

/-- The warnings that a unary operator gives: one if a matrix without an inverse is inverted. -/
def Unary.warnings {α : Type u} [Scalar α] (u : Unary) (a : DenseMatrix α) : List Note :=
  if u = .inverse ∧ a.isRegular = false then [.singular a.rows] else []

/-- A unary operator leaves notes of the finest level on its pivots, and then its warnings. -/
theorem Unary.notes_of_apply {α : Type u} [Scalar α] {u : Unary} {a b : DenseMatrix α}
    (h : (u.apply a).result = .ok b) :
    ∃ pivots : List Note, (∀ note ∈ pivots, note.level = .trace ∧ note.isWork = true) ∧
      (u.apply a).notes = pivots ++ u.warnings a := by
  have hpivots (kind : Nat → Nat → Nat → Note) (hkind : ∀ row col target,
      (kind row col target).level = .trace ∧ (kind row col target).isWork = true)
      (s : Sweep a.rows a.cols α) :
      ∀ note ∈ s.notes kind, note.level = .trace ∧ note.isWork = true := by
    intro note hnote
    obtain ⟨p, -, rfl⟩ := List.mem_map.1 hnote
    exact hkind _ _ _
  cases u with
  | transpose => exact ⟨[], List.forall_mem_nil _, rfl⟩
  | ref =>
    exact ⟨_, hpivots .echelonPivot (fun _ _ _ => ⟨rfl, rfl⟩) _, (List.append_nil _).symm⟩
  | rref =>
    exact ⟨_, hpivots .reducedPivot (fun _ _ _ => ⟨rfl, rfl⟩) _, (List.append_nil _).symm⟩
  | inverse =>
    refine ⟨_, hpivots .reducedPivot (fun _ _ _ => ⟨rfl, rfl⟩) a.grid.reducedSweep, ?_⟩
    cases hinverse : a.inverse with
    | error f => simp only [Unary.apply, hinverse] at h; cases h
    | ok c =>
      simp only [Unary.apply, hinverse, warnings]
      cases a.isRegular <;> rfl

/-- The events show in notes: an arrival in the note on the item at its place, and a reduction in a
note on the operator at its place. -/
def Event.Shows {α : Type u} (items : List (Item α)) : Event → Note → Prop
  | arrival place, note => ∃ item, items[place]? = some item ∧ note = item.note
  | reduction place, note =>
    ∃ op shape, items[place]? = some (.operator op) ∧ note = .reduced op shape

namespace Stacks

variable {α : Type u} [Scalar α] {items : List (Item α)}

/-- One reduction, one note of middle level. -/
theorem exists_reduced {op : Operator} {as bs : List (DenseMatrix α)}
    (h : (reduce op as).toLogged.result = .ok bs) :
    ∃ shape, Note.ofLevel .debug (reduce op as).notes = [.reduced op shape] := by
  match op, as, h with
  | .unary u, a :: rest, h =>
    rw [result_reduce_unary] at h
    obtain ⟨b, hb, -⟩ := map_eq_ok_iff.1 h
    obtain ⟨pivots, hpivots, hnotes⟩ := u.notes_of_apply hb
    have hnone : Note.ofLevel .debug pivots = [] :=
      List.filter_eq_nil_iff.2 fun note hnote => by simp [(hpivots note hnote).1]
    have hwarnings : Note.ofLevel .debug (u.warnings a) = [] := by
      unfold Unary.warnings
      split <;> rfl
    refine ⟨b.toShape, ?_⟩
    simp only [reduce, hb, Outcome.done, hnotes, Note.ofLevel_append, hnone, hwarnings]
    rfl
  | .binary b, right :: left :: rest, h =>
    simp only [reduce] at h ⊢
    cases hb : b.apply left right with
    | error f => simp only [hb] at h; cases h
    | ok c => exact ⟨c.toShape, rfl⟩
  | .opening, a :: rest, h => exact ⟨a.toShape, rfl⟩

/-- Draining leaves one note for each operator, in order. -/
theorem shows_drain {ws : List Waiter} {as bs : List (DenseMatrix α)}
    (hplaces : ∀ w ∈ ws, items[w.place]? = some (.operator w.op))
    (h : (drain (ws.map Waiter.op) as).toLogged.result = .ok bs) :
    List.Forall₂ (Event.Shows items) (ws.map Waiter.reduction)
      (Note.ofLevel .debug (drain (ws.map Waiter.op) as).notes) := by
  induction ws generalizing as with
  | nil => exact .nil
  | cons w ws ih =>
    obtain ⟨hw, hws⟩ := List.forall_mem_cons.1 hplaces
    obtain ⟨-, cs, hreduce, hrest, hnotes⟩ := drain_cons_eq_ok h
    obtain ⟨shape, hnote⟩ := exists_reduced hreduce
    rw [List.map_cons, List.map_cons, hnotes, Note.ofLevel_append, hnote]
    exact .cons ⟨w.op, shape, hw, rfl⟩ (ih hws hrest)

/-- Each arrival leaves a note on the item and one for each operator that it reduces. -/
theorem shows_feed {item : Item α} {place : Nat} {waiting : List Waiter}
    {as : List (DenseMatrix α)} {s : Stacks α} (hitem : items[place]? = some item)
    (hplaces : ∀ w ∈ waiting, items[w.place]? = some (.operator w.op))
    (h : ((mk (waiting.map Waiter.op) as).feed item).toLogged.result = .ok s) :
    s.operators = (item.leaves place waiting).map Waiter.op ∧
    (∀ w ∈ item.leaves place waiting, items[w.place]? = some (.operator w.op)) ∧
    List.Forall₂ (Event.Shows items)
      (.arrival place :: (item.reduced waiting).map Waiter.reduction)
      (Note.ofLevel .debug ((mk (waiting.map Waiter.op) as).feed item).notes) := by
  obtain ⟨bs, hdrain, rfl, hnotes⟩ := feed_eq_ok h place
  refine ⟨rfl, fun w hw => ?_, ?_⟩
  · rcases Item.mem_leaves hw with hold | ⟨rfl, rfl⟩
    · exact hplaces w hold
    · exact hitem
  · have hreduced : ∀ w ∈ item.reduced waiting, items[w.place]? = some (.operator w.op) := by
      cases item with
      | operand a => exact List.forall_mem_nil _
      | operator op => exact fun w hw => hplaces w (List.mem_of_mem_take hw)
    have hnote : item.note.level = .debug := by cases item <;> rfl
    rw [hnotes, Note.ofLevel, List.filter_cons_of_pos (by simpa using hnote)]
    exact .cons ⟨item, hitem, rfl⟩ (shows_drain hreduced hdrain)

/-- The events of a run that does not fail show in its notes; those of its end are left. -/
theorem shows_feedAll {all items : List (Item α)} (place : Nat) (waiting : List Waiter)
    {as : List (DenseMatrix α)} {s : Stacks α} (hdrop : all.drop place = items)
    (hplaces : ∀ w ∈ waiting, all[w.place]? = some (.operator w.op))
    (h : ((mk (waiting.map Waiter.op) as).feedAll items).toLogged.result = .ok s) :
    ∃ (past : List Event) (left : List Waiter),
      Item.eventsFrom place waiting items = past ++ left.map Waiter.reduction ∧
      s.operators = left.map Waiter.op ∧
      (∀ w ∈ left, all[w.place]? = some (.operator w.op)) ∧
      List.Forall₂ (Event.Shows all) past
        (Note.ofLevel .debug ((mk (waiting.map Waiter.op) as).feedAll items).notes) := by
  induction items generalizing place waiting as with
  | nil =>
    cases h
    exact ⟨[], waiting, rfl, rfl, hplaces, .nil⟩
  | cons item items ih =>
    rw [feedAll, Outcome.result_andThen] at h
    obtain ⟨t, hfeed, hrest⟩ := bind_eq_ok_iff.1 h
    obtain ⟨hhere, hnext⟩ := Item.getElem?_and_drop_of_drop_eq_cons hdrop
    obtain ⟨hoperators, hplaces', hshows⟩ := shows_feed hhere hplaces hfeed
    obtain ⟨hfault, hstate⟩ := Outcome.result_eq_ok_iff.1 hfeed
    obtain ⟨operators, bs⟩ := t
    obtain rfl : operators = _ := hoperators
    obtain ⟨past, left, hevents, hleft, hlast, hlater⟩ := ih _ _ hnext hplaces' hrest
    refine ⟨.arrival place :: (item.reduced waiting).map Waiter.reduction ++ past, left, ?_, hleft,
      hlast, ?_⟩
    · rw [Item.eventsFrom, hevents, List.cons_append, List.cons_append, List.append_assoc]
    · rw [feedAll, Outcome.notes_andThen hfault, hstate, Note.ofLevel_append]
      exact List.rel_append hshows hlater

/-- The end of an expression that has a value drains all that waits, and leaves no other notes. -/
theorem notes_finish {s : Stacks α} {a : DenseMatrix α} (h : s.finish.result = .ok a) :
    (drain s.operators s.operands).toLogged.result = .ok [a] ∧
      s.finish.notes = (drain s.operators s.operands).notes := by
  rw [result_finish] at h
  obtain ⟨bs, hdrain, hone⟩ := bind_eq_ok_iff.1 h
  match bs, hone with
  | [b], hone =>
    cases hone
    refine ⟨hdrain, ?_⟩
    rw [finish, Logged.notes_bind_of_ok hdrain]
    exact List.append_nil _

/-- On the way to a value the journal has one note of middle level for each event, in order. -/
theorem shows_evaluateItems {items : List (Item α)} {a : DenseMatrix α}
    (h : (evaluateItems items).result = .ok a) :
    List.Forall₂ (Event.Shows items) (Item.events items)
      (Note.ofLevel .debug (evaluateItems items).notes) := by
  rw [evaluateItems, Logged.result_bind] at h
  obtain ⟨s, hfed, hfinish⟩ := bind_eq_ok_iff.1 h
  obtain ⟨past, left, hevents, hleft, hplaces, hshows⟩ :=
    shows_feedAll 0 [] List.drop_zero (List.forall_mem_nil _) hfed
  rw [evaluateItems, Logged.notes_bind_of_ok hfed, Note.ofLevel_append, Item.events, hevents]
  obtain ⟨hdrain, hnotes⟩ := notes_finish hfinish
  rw [hnotes, hleft]
  exact List.rel_append hshows (shows_drain hplaces (hleft ▸ hdrain))

theorem opening_not_mem_of_drain {operators : List Operator} {as bs : List (DenseMatrix α)}
    (h : (drain operators as).toLogged.result = .ok bs) : .opening ∉ operators := by
  induction operators generalizing as with
  | nil => exact List.not_mem_nil
  | cons op operators ih =>
    obtain ⟨hop, cs, -, hrest, -⟩ := drain_cons_eq_ok h
    exact List.not_mem_cons_of_ne_of_not_mem (Ne.symm hop) (ih hrest)

end Stacks

namespace Item

variable {α : Type u} [Scalar α]

/-- If some items have a value, every operator among them that takes operands is reduced once, and
nothing else is. -/
theorem perm_reductions {items : List (Item α)} {a : DenseMatrix α}
    (h : (evaluateItems items).result = .ok a) :
    ((events items).filterMap Event.reduction?).Perm (appliedPlaces items) := by
  rw [evaluateItems, Logged.result_bind] at h
  obtain ⟨s, hfed, hfinish⟩ := bind_eq_ok_iff.1 h
  have hopening := Stacks.opening_not_mem_of_drain (Stacks.notes_finish hfinish).1
  have hperm := perm_reductions_eventsFrom [] List.drop_zero
    (Stacks.operators_feedAll hfed) hopening
  rwa [← List.range_eq_range'] at hperm

end Item

end MatrixCalc
