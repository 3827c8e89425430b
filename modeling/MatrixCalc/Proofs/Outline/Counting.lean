import Mathlib.Data.List.Induction
import MatrixCalc.Proofs.Outline.Arrivals
import MatrixCalc.Proofs.Outline.Groups
import MatrixCalc.Proofs.Outline.Order

/-!
# Which items come down to a tree

Nothing asks for operands and operators to alternate. An operator takes the operands that are there
when it is reduced, wherever they stood, so whether items come down to one tree is a matter of
counts: the brackets pair up, one operand more arrives than binary operators, and whenever operators
have been reduced there were operands enough for them (`Served`). The counts are also all that
matters (`exists_ofItems?_iff_served`).

Every tree has one leaf more than it has binary operators. So among the operands that arrived, those
in trees are the binary operators that were reduced, and one more for each tree.

§1 counts · §2 brackets · §3 operands · §4 enough operands
-/

namespace MatrixCalc

universe u

variable {α : Type u}

/-! ## §1 Counts -/

namespace Operator

def isBinary : Operator → Bool
  | binary _ => true
  | _ => false

def takesOperands (op : Operator) : Bool := 0 < op.arity

theorem takesOperands_of_isBinary {op : Operator} (h : op.isBinary) : op.takesOperands := by
  cases op <;> first | rfl | cases h

theorem takesOperands_of_ne {op : Operator} (hopening : op ≠ .opening) (hclosing : op ≠ .closing) :
    op.takesOperands := by
  cases op <;> first | rfl | exact absurd rfl hopening | exact absurd rfl hclosing

theorem brackets_eq_false {p : Operator → Bool} (hp : ∀ op, p op → op.takesOperands) :
    p .opening = false ∧ p .closing = false := by
  have hopening : ¬p .opening = true := fun h => absurd (hp _ h) (by decide)
  have hclosing : ¬p .closing = true := fun h => absurd (hp _ h) (by decide)
  exact ⟨Bool.eq_false_iff.2 hopening, Bool.eq_false_iff.2 hclosing⟩

end Operator

namespace Item

def countOperators (p : Operator → Bool) (items : List (Item α)) : Nat :=
  (items.filterMap operator?).countP p

def countOperands (items : List (Item α)) : Nat := (items.filterMap operand?).length

theorem countOperators_append (p : Operator → Bool) (xs ys : List (Item α)) :
    countOperators p (xs ++ ys) = countOperators p xs + countOperators p ys := by
  rw [countOperators, List.filterMap_append, List.countP_append]
  rfl

@[simp] theorem countOperators_operator (p : Operator → Bool) (op : Operator) :
    countOperators p [(.operator op : Item α)] = [op].countP p := rfl

theorem countOperands_append (xs ys : List (Item α)) :
    countOperands (xs ++ ys) = countOperands xs + countOperands ys := by
  rw [countOperands, List.filterMap_append, List.length_append]
  rfl

@[simp] theorem countOperands_operator (op : Operator) :
    countOperands [(.operator op : Item α)] = 0 := rfl

/-- The operators among the items get the operands they take. -/
structure Served (items : List (Item α)) : Prop where
  /-- No group is closed before it is opened, -/
  closes : ∀ pre, pre <+: items →
    countOperators (· == .closing) pre ≤ countOperators (· == .opening) pre
  /-- and every group is closed. -/
  closed : countOperators (· == .closing) items = countOperators (· == .opening) items
  /-- Once an operator that takes operands waits no more, more operands have arrived than binary
  operators that wait no more, -/
  supplied : ∀ pre, pre <+: items → ∀ w ∈ waitingAfter pre [],
    w.countP Operator.takesOperands < countOperators Operator.takesOperands pre →
    countOperators Operator.isBinary pre < countOperands pre + w.countP Operator.isBinary
  /-- and one operand is left in the end. -/
  leftOne : countOperands items = countOperators Operator.isBinary items + 1

end Item

/-! ## §2 Brackets -/

namespace Item

/-- The opening brackets that wait are those that were not closed. -/
theorem count_opening_arrive {item : Item α} {w w' : List Operator} (h : item.arrive w = some w') :
    w'.count .opening + countOperators (· == .closing) [item] =
      w.count .opening + countOperators (· == .opening) [item] := by
  cases item with
  | operand a =>
    cases h
    rfl
  | operator op =>
    rw [countOperators_operator, countOperators_operator]
    rcases Operator.arrive_cases h with
      ⟨rfl, hdrop⟩ | ⟨hop, rfl⟩ | ⟨hop, top, below, htop, rfl, rfl⟩
    · obtain ⟨above, hmem, rfl⟩ := Operator.dropGroup_eq_some hdrop
      have habove : above.count .opening = 0 := List.count_eq_zero.2 hmem
      simp [List.count_append, habove]
    · have hclosing : [op].countP (· == .closing) = 0 := by simp [hop]
      rw [hclosing, List.count_cons, List.countP_singleton]
      simp
    · have hclosing : [op].countP (· == .closing) = 0 := by simp [hop]
      have htop' : (top == .opening) = false := by simp [htop]
      rw [hclosing, List.count_cons, List.count_cons, htop', List.countP_singleton]
      simp

theorem count_opening_waitingAfter {items : List (Item α)} {w w' : List Operator}
    (h : waitingAfter items w = some w') :
    w'.count .opening + countOperators (· == .closing) items =
      w.count .opening + countOperators (· == .opening) items := by
  induction items generalizing w with
  | nil =>
    cases h
    rfl
  | cons item items ih =>
    obtain ⟨v, hv, hrest⟩ := Option.bind_eq_some_iff.1 h
    have hstep := count_opening_arrive hv
    have hlater := ih hrest
    rw [← List.singleton_append, countOperators_append, countOperators_append]
    omega

theorem closing_not_mem_arrive {item : Item α} {w w' : List Operator}
    (h : item.arrive w = some w') (hw : .closing ∉ w) : .closing ∉ w' := by
  cases item with
  | operand a =>
    cases h
    exact hw
  | operator op =>
    rcases Operator.arrive_cases h with
      ⟨rfl, hdrop⟩ | ⟨hop, rfl⟩ | ⟨hop, top, below, htop, rfl, rfl⟩
    · obtain ⟨above, hmem, rfl⟩ := Operator.dropGroup_eq_some hdrop
      exact fun hm => hw (List.mem_append_right _ (List.mem_cons_of_mem _ hm))
    · simpa [Ne.symm hop] using hw
    · have hbelow : .closing ∉ below := fun hm => hw (List.mem_cons_of_mem _ hm)
      simpa [Ne.symm hop] using hbelow

theorem closing_not_mem_waitingAfter {items : List (Item α)} {w w' : List Operator}
    (h : waitingAfter items w = some w') (hw : .closing ∉ w) : .closing ∉ w' := by
  induction items generalizing w with
  | nil =>
    cases h
    exact hw
  | cons item items ih =>
    obtain ⟨v, hv, hrest⟩ := Option.bind_eq_some_iff.1 h
    exact ih hrest (closing_not_mem_arrive hv hw)

end Item

/-! ## §3 Operands -/

theorem Tree.length_leaves {β : Type u} (t : Tree β) :
    t.leaves.length = t.operators.countP Operator.isBinary + 1 := by
  induction t with
  | leaf b => rfl
  | unary u t ih => simpa [leaves, operators, Operator.isBinary] using ih
  | binary b l r ihl ihr =>
    simp only [leaves, operators, List.length_append, List.countP_append, List.countP_cons,
      Operator.isBinary, if_true, ihl, ihr]
    omega

namespace Outline

theorem length_leaves (o : Outline α) :
    o.leaves.length =
      (o.trees.flatMap Tree.operators).countP Operator.isBinary + o.trees.length := by
  obtain ⟨operators, trees⟩ := o
  unfold leaves
  induction trees with
  | nil => rfl
  | cons t trees ih =>
    simp only [List.reverse_cons, List.flatMap_append, List.flatMap_cons, List.flatMap_nil,
      List.append_nil, List.length_append, List.countP_append, List.length_cons] at ih ⊢
    rw [ih, t.length_leaves]
    omega

/-- The operators that arrived wait or stand in the trees. -/
theorem countP_feedAll {items : List (Item α)} {o : Outline α} (h : empty.feedAll items = some o)
    {p : Operator → Bool} (hp : ∀ op, p op → op.takesOperands) :
    o.operators.countP p + (o.trees.flatMap Tree.operators).countP p =
      Item.countOperators p items := by
  have hperm : ((o.operators ++ o.trees.flatMap Tree.operators).filter p).Perm
      ((items.filterMap Item.operator?).filter p) := by
    refine List.perm_iff_count.2 fun x => ?_
    by_cases hx : p x = true
    · have hcount := count_feedAll (by simpa [Operator.takesOperands] using hp x hx) h
      rw [List.count_filter hx, List.count_filter hx, List.count_append]
      simpa [count, empty] using hcount
    · rw [List.count_eq_zero.2 fun hm => hx (List.mem_filter.1 hm).2,
        List.count_eq_zero.2 fun hm => hx (List.mem_filter.1 hm).2]
  rw [← List.countP_append, List.countP_eq_length_filter, hperm.length_eq, Item.countOperators,
    List.countP_eq_length_filter]

/-- The operands that arrived are the leaves of the trees. -/
theorem countOperands_feedAll {items : List (Item α)} {o : Outline α}
    (h : empty.feedAll items = some o) :
    Item.countOperands items =
      (o.trees.flatMap Tree.operators).countP Operator.isBinary + o.trees.length := by
  rw [← length_leaves, leaves_feedAll h]
  rfl

theorem takesOperands_of_drain {operators : List Operator}
    {trees trees' : List (Tree (DenseMatrix α))} (h : drain operators trees = some trees') :
    ∀ op ∈ operators, op.takesOperands := by
  induction operators generalizing trees with
  | nil => simp
  | cons op operators ih =>
    obtain ⟨joined, hj, hd⟩ := Option.bind_eq_some_iff.1 h
    intro x hx
    rcases List.mem_cons.1 hx with rfl | hx
    · match x, trees, hj with
      | .unary u, t :: rest, _ => rfl
      | .binary b, right :: left :: rest, _ => rfl
    · exact ih hd x hx

theorem exists_feedAll_of_prefix {pre items : List (Item α)} {o : Outline α} (hpre : pre <+: items)
    (h : empty.feedAll items = some o) : ∃ p, empty.feedAll pre = some p := by
  obtain ⟨rest, rfl⟩ := hpre
  rw [feedAll_append] at h
  obtain ⟨p, hp, -⟩ := Option.bind_eq_some_iff.1 h
  exact ⟨p, hp⟩

/-- Items that come down to a tree have served all their operators. -/
theorem served_of_ofItems? {items : List (Item α)} {t : Tree (DenseMatrix α)}
    (h : ofItems? items = some t) : Item.Served items := by
  obtain ⟨o, ho, hfinish⟩ := Option.bind_eq_some_iff.1 h
  have hdrain := drain_of_finish hfinish
  constructor
  · intro pre hpre
    obtain ⟨p, hp⟩ := exists_feedAll_of_prefix hpre ho
    have hcount := Item.count_opening_waitingAfter (operators_feedAll hp)
    simp only [empty, List.count_nil] at hcount
    omega
  · have hcount := Item.count_opening_waitingAfter (operators_feedAll ho)
    have hopening : o.operators.count .opening = 0 :=
      List.count_eq_zero.2 fun hm => absurd (takesOperands_of_drain hdrain _ hm) (by decide)
    simp only [empty, List.count_nil] at hcount
    omega
  · intro pre hpre w hw happlied
    obtain ⟨p, hp⟩ := exists_feedAll_of_prefix hpre ho
    obtain rfl := Option.some.inj ((operators_feedAll hp).symm.trans hw)
    have htakes := countP_feedAll hp fun op hop => hop
    have hbinary := countP_feedAll hp fun op hop => Operator.takesOperands_of_isBinary hop
    have hoperands := countOperands_feedAll hp
    -- an operator that waits no more stands in a tree, so there is a tree
    have htree : 0 < p.trees.length := by
      refine List.length_pos_iff.2 fun hnil => ?_
      rw [hnil] at htakes
      simp only [List.flatMap_nil, List.countP_nil] at htakes
      omega
    omega
  · have hbinary := countP_feedAll ho fun op hop => Operator.takesOperands_of_isBinary hop
    have hleaves := leaves_of_ofItems? h
    have hperm := (operators_of_ofItems? h).countP_eq Operator.isBinary
    rw [List.countP_filter] at hperm
    rw [Item.countOperands, ← hleaves, t.length_leaves, hperm, Item.countOperators]
    congr 1
    refine List.countP_congr fun op _ => ?_
    cases op <;> simp [Operator.isBinary, Operator.arity]

/-! ## §4 Enough operands -/

/-- Operators that find more trees than there are binary ones among them are all joined. -/
theorem exists_drain_of_lt {operators : List Operator} {trees : List (Tree (DenseMatrix α))}
    (hops : ∀ op ∈ operators, op.takesOperands)
    (h : operators.countP Operator.isBinary < trees.length) :
    ∃ trees', drain operators trees = some trees' ∧
      trees'.length + operators.countP Operator.isBinary = trees.length := by
  induction operators generalizing trees with
  | nil => exact ⟨trees, rfl, rfl⟩
  | cons op operators ih =>
    have hjoin : ∃ joined, join op trees = some joined ∧
        joined.length + [op].countP Operator.isBinary = trees.length := by
      cases op with
      | opening => exact absurd (hops _ List.mem_cons_self) (by decide)
      | closing => exact absurd (hops _ List.mem_cons_self) (by decide)
      | unary u =>
        rcases trees with _ | ⟨t, rest⟩
        · simp at h
        · exact ⟨_, rfl, rfl⟩
      | binary b =>
        rcases trees with _ | ⟨right, _ | ⟨left, rest⟩⟩
        · simp at h
        · simp [Operator.isBinary] at h
        · exact ⟨_, rfl, rfl⟩
    obtain ⟨joined, hj, hlen⟩ := hjoin
    have hsplit : (op :: operators).countP Operator.isBinary =
        [op].countP Operator.isBinary + operators.countP Operator.isBinary := by
      rw [← List.countP_append]
      rfl
    have hjoined : operators.countP Operator.isBinary < joined.length := by omega
    obtain ⟨trees', hd, hlen'⟩ := ih (fun x hx => hops x (List.mem_cons_of_mem _ hx)) hjoined
    exact ⟨trees', by rw [drain, hj]; exact hd, by omega⟩

/-- What an operator that arrives makes join finds the trees it takes: `above` are the operators
that wait no more after it. -/
theorem lt_length_of_served {pre items : List (Item α)} {op : Operator} {o : Outline α}
    {above w : List Operator} (h : Item.Served items) (hpre : pre ++ [.operator op] <+: items)
    (ho : empty.feedAll pre = some o) (hw : op.arrive o.operators = some w)
    (habove : 0 < above.countP Operator.takesOperands)
    (hgone : ∀ p : Operator → Bool, (∀ x, p x → x.takesOperands) →
      above.countP p + w.countP p = [op].countP p + o.operators.countP p) :
    above.countP Operator.isBinary < o.trees.length := by
  have hwaiting : Item.waitingAfter (pre ++ [.operator op]) [] = some w := by
    have hfirst : Item.waitingAfter pre [] = some o.operators := operators_feedAll ho
    rw [Item.waitingAfter_append, hfirst]
    show (op.arrive o.operators).bind _ = some w
    rw [hw]
    rfl
  have htakes := countP_feedAll ho fun op hop => hop
  have hbinary := countP_feedAll ho fun op hop => Operator.takesOperands_of_isBinary hop
  have hoperands := countOperands_feedAll ho
  have hgoneTakes := hgone _ fun x hx => hx
  have hgoneBinary := hgone _ fun x hx => Operator.takesOperands_of_isBinary hx
  have hsupply := h.supplied _ hpre w hwaiting
  rw [Item.countOperators_append, Item.countOperators_append, Item.countOperators_operator,
    Item.countOperators_operator, Item.countOperands_append, Item.countOperands_operator] at hsupply
  have hlt := hsupply (by omega)
  omega

/-- A closing bracket finds its partner, and the operators between them find their operands. -/
theorem exists_closeGroup_of_served {pre items : List (Item α)} {o : Outline α}
    (h : Item.Served items) (hpre : pre ++ [.operator .closing] <+: items)
    (ho : empty.feedAll pre = some o) :
    ∃ o', closeGroup o.operators o.trees = some o' := by
  have hwaiting : Item.waitingAfter pre [] = some o.operators := operators_feedAll ho
  have hclosing := Item.closing_not_mem_waitingAfter hwaiting List.not_mem_nil
  -- more groups were opened than closed before, so an opening bracket waits
  have hmem : .opening ∈ o.operators := by
    have hcount := Item.count_opening_waitingAfter hwaiting
    have hcloses := h.closes _ hpre
    rw [Item.countOperators_append, Item.countOperators_append] at hcloses
    simp at hcount hcloses
    exact List.count_pos_iff.1 (by omega)
  obtain ⟨operators, trees⟩ := o
  obtain ⟨above, below, rfl, hnot⟩ := List.eq_append_cons_of_mem hmem
  have habove : ∀ x ∈ above, x.takesOperands := by
    intro x hx
    refine Operator.takesOperands_of_ne ?_ ?_
    · rintro rfl
      exact hnot hx
    · rintro rfl
      exact hclosing (List.mem_append_left _ hx)
  have hdrain : ∃ trees', drain above trees = some trees' := by
    by_cases hempty : above = []
    · subst hempty
      exact ⟨trees, rfl⟩
    · have hpos : 0 < above.countP Operator.takesOperands := by
        obtain ⟨x, hx⟩ := List.exists_mem_of_ne_nil above hempty
        exact List.countP_pos_iff.2 ⟨x, hx, habove x hx⟩
      have hdrop := Operator.dropGroup_of_not_mem hnot below
      have hlt := lt_length_of_served h hpre ho hdrop hpos fun p hp => by
        simp [Operator.brackets_eq_false hp]
      obtain ⟨trees', hd, -⟩ := exists_drain_of_lt habove hlt
      exact ⟨trees', hd⟩
  obtain ⟨trees', hd⟩ := hdrain
  have hclose := closeGroup_of_drain hd below []
  rw [List.append_nil] at hclose
  exact ⟨_, hclose⟩

theorem exists_feed_of_served {pre items : List (Item α)} {item : Item α} {o : Outline α}
    (h : Item.Served items) (hpre : pre ++ [item] <+: items) (ho : empty.feedAll pre = some o) :
    ∃ o', o.feed item = some o' := by
  cases item with
  | operand a => exact ⟨_, rfl⟩
  | operator op =>
    by_cases hop : op = .closing
    · subst hop
      exact exists_closeGroup_of_served h hpre ho
    · have hclosing : .closing ∉ o.operators :=
        Item.closing_not_mem_waitingAfter (operators_feedAll ho) List.not_mem_nil
      obtain ⟨operators, trees⟩ := o
      cases operators with
      | nil => exact ⟨_, pushOperator_waits hop (by simp)⟩
      | cons top below =>
        cases hw : Stacks.waitsAbove op top with
        | true => exact ⟨_, pushOperator_waits hop (by simpa using hw)⟩
        | false =>
          have htop : top.takesOperands := by
            refine Operator.takesOperands_of_ne ?_ ?_
            · rintro rfl
              simp [Stacks.waitsAbove] at hw
            · rintro rfl
              exact hclosing List.mem_cons_self
          have hpos : 0 < [top].countP Operator.takesOperands := by simp [htop]
          have hlt := lt_length_of_served h hpre ho (Operator.arrive_pops hop hw) hpos
            fun p hp => by
              simp only [List.countP_cons, List.countP_nil]
              omega
          obtain ⟨trees', hd, -⟩ := exists_drain_of_lt (by simpa using htop) hlt
          obtain ⟨joined, hj, -⟩ := Option.bind_eq_some_iff.1 hd
          exact ⟨_, pushOperator_joins hop hw hj⟩

theorem exists_feedAll_of_served {items : List (Item α)} (h : Item.Served items) :
    ∃ o, empty.feedAll items = some o := by
  have hrun : ∀ pre, pre <+: items → ∃ o, empty.feedAll pre = some o := by
    intro pre
    induction pre using List.reverseRecOn with
    | nil => exact fun _ => ⟨empty, rfl⟩
    | append_singleton pre item ih =>
      intro hpre
      obtain ⟨o, ho⟩ := ih ((List.prefix_append pre [item]).trans hpre)
      obtain ⟨o', ho'⟩ := exists_feed_of_served h hpre ho
      exact ⟨o', by rw [feedAll_append, ho, Option.bind_some, feedAll_cons, ho']; rfl⟩
  exact hrun items List.prefix_rfl

/-- Items come down to a tree exactly if they serve all their operators. -/
theorem exists_ofItems?_iff_served {items : List (Item α)} :
    (∃ t, ofItems? items = some t) ↔ Item.Served items := by
  constructor
  · rintro ⟨t, ht⟩
    exact served_of_ofItems? ht
  · intro h
    obtain ⟨o, ho⟩ := exists_feedAll_of_served h
    have hwaiting : Item.waitingAfter items [] = some o.operators := operators_feedAll ho
    have hopening : .opening ∉ o.operators := by
      intro hmem
      have hcount := Item.count_opening_waitingAfter hwaiting
      have hpos := List.count_pos_iff.2 hmem
      have hclosed := h.closed
      simp only [List.count_nil] at hcount
      omega
    have hclosing := Item.closing_not_mem_waitingAfter hwaiting List.not_mem_nil
    have hops : ∀ x ∈ o.operators, x.takesOperands := fun x hx =>
      Operator.takesOperands_of_ne (fun heq => hopening (heq ▸ hx)) (fun heq => hclosing (heq ▸ hx))
    have hbinary := countP_feedAll ho fun op hop => Operator.takesOperands_of_isBinary hop
    have hoperands := countOperands_feedAll ho
    have hone := h.leftOne
    have hlt : o.operators.countP Operator.isBinary < o.trees.length := by omega
    obtain ⟨trees', hd, hlen⟩ := exists_drain_of_lt hops hlt
    obtain ⟨t, rfl⟩ := List.length_eq_one_iff.1 (show trees'.length = 1 by omega)
    exact ⟨t, by rw [ofItems?, ho, Option.bind_some, finish, hd]⟩

end Outline

end MatrixCalc
