import MatrixCalc.Proofs.Outline.Counting
import MatrixCalc.Proofs.Outline.Faults

/-!
# The account of a run

The stacks can be fed in any order, and much that can be fed is no expression. As long as no call
fails, what waits is accounted for by what was fed (`Stacks.Accounts`): reductions take place when
an operator arrives, when a group is closed and at the end, and each of them takes one operator, and
one operand for every binary one. So the fault that the end runs into tells something about the
whole run, and not only about the stacks it finds (`Stacks.finish_accounts`).

§1 the account · §2 reductions that succeed · §3 the end of a run
-/

namespace MatrixCalc

universe u

variable {α : Type u}

/-! ## §1 The account -/

theorem Item.countOperators_isBinary_le (items : List (Item α)) :
    countOperators Operator.isBinary items ≤ countOperators Operator.takesOperands items :=
  List.countP_mono_left fun _ _ hop => Operator.takesOperands_of_isBinary hop

namespace Stacks

/-- What waits on the stacks after some items, none of which failed. -/
structure Accounts (s : Stacks α) (items : List (Item α)) : Prop where
  /-- The operands that wait are those that arrived, less one for every binary operator that waits
  no more. -/
  operands : s.operands.length + Item.countOperators Operator.isBinary items =
    Item.countOperands items + s.operators.countP Operator.isBinary
  /-- The opening brackets that wait are those that were not closed. -/
  opening : s.operators.count .opening + Item.countOperators (· == .closing) items =
    Item.countOperators (· == .opening) items
  /-- A closing bracket never waits. -/
  closing : .closing ∉ s.operators
  /-- What waits has arrived, -/
  arrived : s.operators.countP Operator.takesOperands ≤
    Item.countOperators Operator.takesOperands items
  /-- and as long as no operand waits, no operator has taken one. -/
  idle : s.operands = [] →
    s.operators.countP Operator.takesOperands = Item.countOperators Operator.takesOperands items

variable {items : List (Item α)} {s : Stacks α}

theorem Accounts.closings_le (h : s.Accounts items) :
    Item.countOperators (· == .closing) items ≤ Item.countOperators (· == .opening) items :=
  h.opening ▸ Nat.le_add_left _ _

/-- If nothing but pairs of brackets arrived, nothing waits. -/
theorem Accounts.nothing_waits (h : s.Accounts items)
    (hbrackets :
      Item.countOperators (· == .opening) items = Item.countOperators (· == .closing) items)
    (hoperands : Item.countOperands items = 0)
    (htakes : Item.countOperators Operator.takesOperands items = 0) : s = empty := by
  obtain ⟨operators, operands⟩ := s
  have htaken : ∀ op ∈ operators, ¬op.takesOperands :=
    List.countP_eq_zero.1 (Nat.le_zero.1 (htakes ▸ h.arrived))
  have hopening : .opening ∉ operators :=
    List.count_eq_zero.1 (Nat.add_eq_right.1 (h.opening.trans hbrackets))
  obtain rfl : operators = [] := List.eq_nil_iff_forall_not_mem.2 fun op hop => htaken op hop <|
    Operator.takesOperands_of_ne (fun heq => hopening (heq ▸ hop)) fun heq => h.closing (heq ▸ hop)
  have hlength : operands.length = 0 := by
    have hwaiting := h.operands
    rw [hoperands] at hwaiting
    exact (Nat.add_eq_zero_iff.1 hwaiting).1
  rw [List.length_eq_zero_iff.1 hlength]
  rfl

variable [Scalar α]

/-- The operands that arrived are the leaves of the trees that wait, and an operator that waits no
more stands in one of them. -/
theorem accounts_feedAll (h : (empty.feedAll items).toLogged.result = .ok s) :
    s.Accounts items := by
  obtain ⟨o, ho⟩ := Outline.exists_feedAll (o := Outline.empty) rfl h
  have hreal : o.realize = .ok s := by
    rw [Outline.realize_feedAll ho]
    exact h
  obtain ⟨as, hvalues, rfl⟩ := map_eq_ok_iff.1 hreal
  have hlength := Tree.length_of_values hvalues
  have hbinary := Outline.countP_feedAll ho fun op hop => Operator.takesOperands_of_isBinary hop
  have htakes := Outline.countP_feedAll ho fun op hop => hop
  have hoperands := Outline.countOperands_feedAll ho
  have hwaiting := Outline.operators_feedAll ho
  refine ⟨?_, ?_, Item.closing_not_mem_waitingAfter hwaiting List.not_mem_nil,
    htakes ▸ Nat.le_add_right _ _, fun hnil => ?_⟩
  · show as.length + _ = _ + o.operators.countP _
    omega
  · have hcount := Item.count_opening_waitingAfter hwaiting
    rwa [show Outline.empty.operators.count .opening = 0 from rfl, Nat.zero_add] at hcount
  · obtain rfl : as = [] := hnil
    obtain htrees : o.trees = [] := List.length_eq_zero_iff.1 hlength.symm
    rw [htrees, List.flatMap_nil, List.countP_nil, Nat.add_zero] at htakes
    exact htakes

/-- A run without fault has none on the way. -/
theorem exists_feedAll_of_prefix {pre : List (Item α)} (hpre : pre <+: items)
    (h : (empty.feedAll items).toLogged.result = .ok s) :
    ∃ t, (empty.feedAll pre).toLogged.result = .ok t := by
  obtain ⟨rest, rfl⟩ := hpre
  rw [result_feedAll_append] at h
  obtain ⟨t, ht, -⟩ := bind_eq_ok_iff.1 h
  exact ⟨t, ht⟩

end Stacks

/-! ## §2 Reductions that succeed -/

namespace Stacks

variable [Scalar α] {op : Operator} {operators : List Operator} {as bs : List (DenseMatrix α)}

/-- A reduction that succeeds takes two operands for a binary operator and one for a unary one, and
puts one in their place. -/
theorem reduce_eq_ok (hop : op ≠ .opening) (h : (reduce op as).toLogged.result = .ok bs) :
    op.takesOperands ∧ bs ≠ [] ∧ bs.length + [op].countP Operator.isBinary = as.length := by
  match op, as, h with
  | .unary u, a :: rest, h =>
    rw [result_reduce_unary] at h
    obtain ⟨b, -, rfl⟩ := map_eq_ok_iff.1 h
    exact ⟨rfl, List.cons_ne_nil _ _, rfl⟩
  | .binary b, right :: left :: rest, h =>
    rw [result_reduce_binary] at h
    obtain ⟨c, -, rfl⟩ := map_eq_ok_iff.1 h
    exact ⟨rfl, List.cons_ne_nil _ _, rfl⟩
  | .opening, _, _ => exact absurd rfl hop
  | .unary u, [], h => cases h
  | .binary b, [], h => cases h
  | .binary b, [a], h => cases h
  | .closing, _, h => cases h

/-- The end of an expression that reduces all that waits finds no bracket, and it leaves an operand
if there was anything to reduce. -/
theorem drain_eq_ok (h : (drain operators as).toLogged.result = .ok bs) :
    (∀ x ∈ operators, x.takesOperands) ∧
      bs.length + operators.countP Operator.isBinary = as.length ∧
      (bs = [] → operators = [] ∧ as = []) := by
  induction operators generalizing as with
  | nil =>
    cases h
    exact ⟨fun x hx => absurd hx List.not_mem_nil, rfl, fun hnil => ⟨rfl, hnil⟩⟩
  | cons op operators ih =>
    have hop : op ≠ .opening := by
      rintro rfl
      cases h
    rw [result_drain_cons hop] at h
    obtain ⟨cs, hr, hd⟩ := bind_eq_ok_iff.1 h
    obtain ⟨htakes, hcs, hfirst⟩ := reduce_eq_ok hop hr
    obtain ⟨hrest, hlength, hnil⟩ := ih hd
    refine ⟨List.forall_mem_cons.2 ⟨htakes, hrest⟩, ?_, fun hbs => absurd (hnil hbs).2 hcs⟩
    rw [← List.singleton_append, List.countP_append]
    omega

/-! ## §3 The end of a run -/

variable {items : List (Item α)} {s : Stacks α}

/-- The account is settled if all that waits is reduced: every bracket is closed, and the operands
that are left are those that arrived, less one for every binary operator. -/
theorem Accounts.settled (h : s.Accounts items)
    (hd : (drain s.operators s.operands).toLogged.result = .ok bs) :
    Item.countOperators (· == .opening) items = Item.countOperators (· == .closing) items ∧
      bs.length + Item.countOperators Operator.isBinary items = Item.countOperands items ∧
      (bs = [] → Item.countOperators Operator.takesOperands items = 0) := by
  obtain ⟨htakes, hlength, hnil⟩ := drain_eq_ok hd
  have hopening : s.operators.count .opening = 0 :=
    List.count_eq_zero.2 fun hm => absurd (htakes _ hm) (by decide)
  have hbrackets := h.opening
  have hoperands := h.operands
  refine ⟨by omega, by omega, fun hbs => ?_⟩
  obtain ⟨hops, has⟩ := hnil hbs
  rw [← h.idle has, hops, List.countP_nil]

/-- What waits is accounted for by the calls made so far, as long as none of them fails: the
operands that wait are those that arrived, less one for every binary operator that waits no more,
and the opening brackets that wait are those that were not closed. The end tells the truth about the
whole run: there is a value only if one operand more than binary operators arrived and every bracket
was closed; operands that are left over are those that no binary operator could take; and nothing is
to be evaluated exactly if nothing but pairs of brackets arrived. -/
theorem finish_accounts {calls : List (Item α)} {s : Stacks α}
    (h : (empty.feedAll calls).toLogged.result = .ok s) :
    let operands := Item.countOperands calls
    let binary := Item.countOperators Operator.isBinary calls
    let opened := Item.countOperators (· == .opening) calls
    let closed := Item.countOperators (· == .closing) calls
    (∀ pre, pre <+: calls → ∃ t, (empty.feedAll pre).toLogged.result = .ok t ∧ t.Accounts pre ∧
      Item.countOperators (· == .closing) pre ≤ Item.countOperators (· == .opening) pre) ∧
    (∀ a, s.finish.result = .ok a → operands = binary + 1 ∧ opened = closed) ∧
    (∀ count, s.finish.result = .error (.calculation (.leftoverOperands count)) →
      opened = closed ∧ count + binary = operands ∧ 2 ≤ count) ∧
    (s.finish.result = .error (.calculation .emptyExpression) ↔
      opened = closed ∧ operands = 0 ∧
        Item.countOperators Operator.takesOperands calls = 0) ∧
    (closed < opened → ∃ f, s.finish.result = .error f) := by
  intro operands binary opened closed
  have haccounts := accounts_feedAll h
  have hvalue : ∀ a, s.finish.result = .ok a → operands = binary + 1 ∧ opened = closed := by
    intro a ha
    obtain ⟨bs, hd, ⟨-, hr⟩ | ⟨b, rfl, -⟩ | ⟨-, hr⟩⟩ := drain_of_finish ha nofun
    · cases hr
    · obtain ⟨hbrackets, hlength, -⟩ := haccounts.settled hd
      exact ⟨(hlength.symm.trans (Nat.add_comm _ _)), hbrackets⟩
    · cases hr
  refine ⟨fun pre hpre => ?_, hvalue, fun count hcount => ?_, ⟨fun hempty => ?_, ?_⟩,
    fun hlt => ?_⟩
  · obtain ⟨t, ht⟩ := exists_feedAll_of_prefix hpre h
    have hpart := accounts_feedAll ht
    exact ⟨t, ht, hpart, hpart.closings_le⟩
  · obtain ⟨bs, hd, ⟨-, hr⟩ | ⟨b, -, hr⟩ | ⟨htwo, hr⟩⟩ := drain_of_finish hcount fun f hf =>
      Except.error.inj hf ▸ Fault.not_isOfMove_leftover count
    · cases hr
    · cases hr
    · cases hr
      obtain ⟨hbrackets, hlength, -⟩ := haccounts.settled hd
      exact ⟨hbrackets, hlength, htwo⟩
  · obtain ⟨bs, hd, ⟨rfl, -⟩ | ⟨b, -, hr⟩ | ⟨-, hr⟩⟩ := drain_of_finish hempty fun f hf =>
      Except.error.inj hf ▸ Fault.not_isOfMove_empty
    · obtain ⟨hbrackets, hlength, htakes⟩ := haccounts.settled hd
      have hbinary := Item.countOperators_isBinary_le calls
      rw [htakes rfl] at hbinary
      rw [Nat.le_zero.1 hbinary] at hlength
      exact ⟨hbrackets, hlength.symm, htakes rfl⟩
    · cases hr
    · cases hr
  · rintro ⟨hbrackets, hoperands, htakes⟩
    rw [haccounts.nothing_waits hbrackets hoperands htakes]
    rfl
  · cases hfinish : s.finish.result with
    | error f => exact ⟨f, rfl⟩
    | ok a => exact absurd (hvalue a hfinish).2 hlt.ne'

/-- A difference that is taken when the plus arrives, a matrix that no operator takes, and a pair of
brackets around nothing. -/
theorem finish_accounts_leftover :
    let item (x : Float) : Item Float := .operand ⟨⟨1, 1⟩, #[x]⟩
    let early : List (Item Float) := [item 7, .operator (.binary .minus), item 2,
      .operator (.binary .plus)]
    let calls : List (Item Float) := early ++
      [item 4, .operator .opening, .operator .closing, item 1]
    let s : Stacks Float := (empty.feedAll calls).state
    (empty.feedAll calls).toLogged.result = .ok s ∧
    (∃ t, (empty.feedAll early).toLogged.result = .ok t ∧ t.Accounts early) ∧
    s.operands = [⟨⟨1, 1⟩, #[1]⟩, ⟨⟨1, 1⟩, #[4]⟩, ⟨⟨1, 1⟩, #[5]⟩] ∧
    s.finish.result = .error (.calculation (.leftoverOperands 2)) ∧
    2 + Item.countOperators Operator.isBinary calls = Item.countOperands calls := by
  intro item early calls s
  have h : (empty.feedAll calls).toLogged.result = .ok s :=
    Outcome.result_eq_ok_iff.2 ⟨by decide +kernel, rfl⟩
  have hfinish : s.finish.result = .error (.calculation (.leftoverOperands 2)) := by
    decide +kernel
  obtain ⟨hprefixes, -, hleftover, -, -⟩ := finish_accounts h
  obtain ⟨t, ht, haccounts, -⟩ := hprefixes early (List.prefix_append _ _)
  exact ⟨h, ⟨t, ht, haccounts⟩, by decide +kernel, hfinish, (hleftover 2 hfinish).2.1⟩

end Stacks

end MatrixCalc
