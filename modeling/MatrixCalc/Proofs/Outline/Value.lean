import MatrixCalc.Evaluation
import MatrixCalc.Proofs.Outline.Basic

/-!
# The value of an outline

An outline stands for the stacks whose operands are the values of its trees. The moves of an outline
are then the moves of the stacks, also where a tree has no value: the first fault among the trees,
from the one that waits longest on, is the fault the stacks ran into.

Main statements: if some items come down to one tree, the value of the items is the value of that
tree, fault or not (`result_evaluateItems`); and items that have a value come down to a tree
(`exists_ofItems?`).
-/

namespace MatrixCalc

universe u v

deriving instance DecidableEq for DenseMatrix

instance decidableEqExcept {ε : Type u} {σ : Type v} [DecidableEq ε] [DecidableEq σ] :
    DecidableEq (Except ε σ)
  | .ok a, .ok b => decidable_of_iff (a = b) (by simp)
  | .error e, .error f => decidable_of_iff (e = f) (by simp)
  | .ok _, .error _ => isFalse (by simp)
  | .error _, .ok _ => isFalse (by simp)

/-! ## §1 The moves of the stacks as results -/

/-- Work that succeeds is two parts that succeed. -/
theorem bind_eq_ok_iff {ε : Type u} {σ τ : Type v} {x : Except ε σ} {f : σ → Except ε τ} {b : τ} :
    x.bind f = .ok b ↔ ∃ a, x = .ok a ∧ f a = .ok b := by
  cases x <;> simp [Except.bind]

theorem bind_eq_error_iff {ε : Type u} {σ τ : Type v} {x : Except ε σ} {f : σ → Except ε τ}
    {e : ε} :
    x.bind f = .error e ↔ x = .error e ∨ ∃ a, x = .ok a ∧ f a = .error e := by
  cases x <;> simp [Except.bind]

theorem map_eq_ok_iff {ε : Type u} {σ τ : Type v} {x : Except ε σ} {f : σ → τ} {b : τ} :
    x.map f = .ok b ↔ ∃ a, x = .ok a ∧ f a = b := by
  cases x <;> simp [Except.map]

namespace Outcome

variable {σ : Type u} {τ : Type v}

@[simp] theorem result_done (s : σ) (notes : List Note) : (done s notes).toLogged.result = .ok s :=
  rfl

@[simp] theorem result_failed (s : σ) (f : Fault) : (failed s f).toLogged.result = .error f := rfl

@[simp] theorem result_after (notes : List Note) (x : Outcome σ) :
    (x.after notes).toLogged.result = x.toLogged.result := rfl

@[simp] theorem result_andThen (x : Outcome σ) (f : σ → Outcome σ) :
    (x.andThen f).toLogged.result = x.toLogged.result.bind fun s => (f s).toLogged.result := by
  obtain ⟨notes, s, fault?⟩ := x
  cases fault? <;> rfl

@[simp] theorem result_map (f : σ → τ) (x : Outcome σ) :
    (x.map f).toLogged.result = x.toLogged.result.map f := by
  obtain ⟨notes, s, fault?⟩ := x
  cases fault? <;> rfl

theorem result_eq_ok_iff {x : Outcome σ} {s : σ} :
    x.toLogged.result = .ok s ↔ x.fault? = none ∧ x.state = s := by
  obtain ⟨notes, t, fault?⟩ := x
  cases fault? <;> simp [toLogged]

end Outcome

namespace Stacks

variable {α : Type u} [Scalar α]

theorem result_reduce_unary (u : Unary) (a : DenseMatrix α) (rest : List (DenseMatrix α)) :
    (reduce (.unary u) (a :: rest)).toLogged.result = (u.apply a).result.map (· :: rest) := by
  simp only [reduce]
  cases h : (u.apply a).result <;> rfl

theorem result_reduce_binary (b : Binary) (right left : DenseMatrix α)
    (rest : List (DenseMatrix α)) :
    (reduce (.binary b) (right :: left :: rest)).toLogged.result =
      ((b.apply left right).mapError Fault.calculation).map (· :: rest) := by
  simp only [reduce]
  cases h : b.apply left right <;> rfl

theorem closeGroup_cons {op : Operator} (h : op ≠ .opening) (operators : List Operator)
    (as : List (DenseMatrix α)) :
    closeGroup (op :: operators) as =
      ((reduce op as).map (mk operators)).andThen fun s => closeGroup operators s.operands := by
  cases op <;> first | rfl | exact absurd rfl h

/-- Closing a group reduces every waiting operator but the opening bracket. -/
theorem result_closeGroup_cons {op : Operator} (h : op ≠ .opening) (operators : List Operator)
    (as : List (DenseMatrix α)) :
    (closeGroup (op :: operators) as).toLogged.result =
      (reduce op as).toLogged.result.bind fun bs => (closeGroup operators bs).toLogged.result := by
  rw [closeGroup_cons h, Outcome.result_andThen, Outcome.result_map]
  cases (reduce op as).toLogged.result <;> rfl

/-- An operator waits if nothing does yet, and on top of what it need not reduce. -/
theorem result_pushOperator_waits {op : Operator} {s : Stacks α} (hop : op ≠ .closing)
    (h : ∀ top ∈ s.operators.head?, waitsAbove op top = true) :
    (s.pushOperator op).toLogged.result = .ok { s with operators := op :: s.operators } := by
  obtain ⟨operators, operands⟩ := s
  unfold pushOperator
  cases operators with
  | nil => simp [hop]
  | cons top operators => simp [hop, h top rfl]

/-- Otherwise the last waiting operator is reduced, and no other. -/
theorem result_pushOperator_reduces {op top : Operator} {operators : List Operator}
    (hop : op ≠ .closing) (h : waitsAbove op top = false) (as : List (DenseMatrix α)) :
    ((Stacks.mk (top :: operators) as).pushOperator op).toLogged.result =
      (reduce top as).toLogged.result.map (mk (op :: operators)) := by
  simp only [pushOperator, if_neg hop, h, Outcome.result_after, Outcome.result_andThen,
    Outcome.result_map, Bool.false_eq_true, if_false]
  cases (reduce top as).toLogged.result <;> rfl

theorem result_feedAll_cons (item : Item α) (items : List (Item α)) (s : Stacks α) :
    (s.feedAll (item :: items)).toLogged.result =
      (s.feed item).toLogged.result.bind fun t => (t.feedAll items).toLogged.result := by
  rw [feedAll, Outcome.result_andThen]

theorem result_feedAll_append (xs ys : List (Item α)) (s : Stacks α) :
    (s.feedAll (xs ++ ys)).toLogged.result =
      (s.feedAll xs).toLogged.result.bind fun t => (t.feedAll ys).toLogged.result := by
  induction xs generalizing s with
  | nil => rfl
  | cons x xs ih =>
    rw [List.cons_append, result_feedAll_cons, result_feedAll_cons]
    cases (s.feed x).toLogged.result with
    | error f => rfl
    | ok t => exact ih t

theorem drain_cons {op : Operator} (h : op ≠ .opening) (operators : List Operator)
    (as : List (DenseMatrix α)) :
    drain (op :: operators) as = (reduce op as).andThen (drain operators) := by
  cases op <;> first | rfl | exact absurd rfl h

/-- The end of an expression reduces every waiting operator but an opening bracket. -/
theorem result_drain_cons {op : Operator} (h : op ≠ .opening) (operators : List Operator)
    (as : List (DenseMatrix α)) :
    (drain (op :: operators) as).toLogged.result =
      (reduce op as).toLogged.result.bind fun bs => (drain operators bs).toLogged.result := by
  rw [drain_cons h, Outcome.result_andThen]

/-- The value is the operand that is left alone. -/
theorem result_finish (s : Stacks α) :
    s.finish.result = (drain s.operators s.operands).toLogged.result.bind fun
      | [] => .error (.calculation .emptyExpression)
      | [a] => .ok a
      | operands => .error (.calculation (.leftoverOperands operands.length)) := by
  unfold finish
  rw [Logged.result_bind]
  congr 1
  funext operands
  rcases operands with _ | ⟨a, _ | ⟨b, rest⟩⟩ <;> rfl

end Stacks

/-! ## §2 What an outline stands for -/

namespace Tree

variable {α : Type u} [Scalar α]

/-- The values of some waiting trees, the last one first. The one that waits longest is computed
first. -/
def values : List (Tree (DenseMatrix α)) → Except Fault (List (DenseMatrix α))
  | [] => .ok []
  | t :: below => (values below).bind fun as => t.value.map (· :: as)

theorem value_unary (op : Unary) (t : Tree (DenseMatrix α)) :
    (unary op t).value = t.value.bind fun a => (op.apply a).result := rfl

theorem value_binary (op : Binary) (l r : Tree (DenseMatrix α)) :
    (binary op l r).value = l.value.bind fun a => r.value.bind fun b =>
      (op.apply a b).mapError Fault.calculation := rfl

theorem values_map_leaf (as : List (DenseMatrix α)) : values (as.map leaf) = .ok as := by
  induction as with
  | nil => rfl
  | cons a as ih =>
    rw [List.map_cons, values, ih]
    rfl

theorem length_of_values {trees : List (Tree (DenseMatrix α))} {as : List (DenseMatrix α)}
    (h : values trees = .ok as) : as.length = trees.length := by
  induction trees generalizing as with
  | nil =>
    cases h
    rfl
  | cons t below ih =>
    rw [values] at h
    cases hb : values below with
    | error f => simp [hb, Except.bind] at h
    | ok bs =>
      cases ht : t.value with
      | error f => simp [hb, ht, Except.bind, Except.map] at h
      | ok a =>
        simp only [hb, ht, Except.bind, Except.map, Except.ok.injEq] at h
        rw [← h, List.length_cons, List.length_cons, ih hb]

end Tree

namespace Outline

variable {α : Type u} [Scalar α]

/-- The stacks that an outline stands for, or the first fault on the way to them. -/
def realize (o : Outline α) : Except Fault (Stacks α) :=
  (Tree.values o.trees).map (Stacks.mk o.operators)

/-- Joining trees is reducing their values. -/
theorem values_join {op : Operator} {trees trees' : List (Tree (DenseMatrix α))}
    (h : join op trees = some trees') :
    Tree.values trees' =
      (Tree.values trees).bind fun as => (Stacks.reduce op as).toLogged.result := by
  match op, trees, h with
  | .unary u, t :: rest, h =>
    cases h
    simp only [Tree.values, Tree.value_unary]
    cases Tree.values rest with
    | error f => rfl
    | ok bs =>
      cases t.value with
      | error f => rfl
      | ok a => exact (Stacks.result_reduce_unary u a bs).symm
  | .binary b, right :: left :: rest, h =>
    cases h
    simp only [Tree.values, Tree.value_binary]
    cases Tree.values rest with
    | error f => rfl
    | ok bs =>
      cases left.value with
      | error f => rfl
      | ok l =>
        cases right.value with
        | error f => rfl
        | ok r => exact (Stacks.result_reduce_binary b r l bs).symm

theorem exists_join {op : Operator} (hop : op ≠ .opening) {trees : List (Tree (DenseMatrix α))}
    {as bs : List (DenseMatrix α)} (hv : Tree.values trees = .ok as)
    (h : (Stacks.reduce op as).toLogged.result = .ok bs) :
    ∃ trees', join op trees = some trees' := by
  have hlen := Tree.length_of_values hv
  -- there are as many trees as operands, so neither side can run out alone
  match op, trees, as with
  | .unary u, t :: rest, _ => exact ⟨_, rfl⟩
  | .binary b, right :: left :: rest, _ => exact ⟨_, rfl⟩
  | .unary u, [], a :: as => simp at hlen
  | .unary u, [], [] => cases h
  | .binary b, [], [] => cases h
  | .binary b, [], a :: as => simp at hlen
  | .binary b, [t], [a] => cases h
  | .binary b, [t], [] => simp at hlen
  | .binary b, [t], a :: c :: as => simp at hlen
  | .opening, _, _ => exact absurd rfl hop
  | .closing, _, _ => cases h

/-- Closing a group of trees is closing the group of their values. -/
theorem realize_closeGroup {operators : List Operator} {trees : List (Tree (DenseMatrix α))}
    {o' : Outline α} (h : closeGroup operators trees = some o') :
    o'.realize =
      (Tree.values trees).bind fun as => (Stacks.closeGroup operators as).toLogged.result := by
  induction operators generalizing trees with
  | nil => cases h
  | cons op operators ih =>
    by_cases hop : op = .opening
    · subst hop
      cases h
      unfold realize
      cases Tree.values trees <;> rfl
    · rw [closeGroup_cons hop] at h
      obtain ⟨trees', hj, hc⟩ := Option.bind_eq_some_iff.1 h
      rw [ih hc, values_join hj]
      cases Tree.values trees with
      | error f => rfl
      | ok as => exact (Stacks.result_closeGroup_cons hop operators as).symm

theorem realize_pushOperator {op : Operator} {o o' : Outline α}
    (h : o.pushOperator op = some o') :
    o'.realize = o.realize.bind fun s => (s.pushOperator op).toLogged.result := by
  obtain ⟨operators, trees⟩ := o
  rcases pushOperator_cases h with
    ⟨rfl, hc⟩ | ⟨hop, hw, rfl⟩ | ⟨hop, top, rest, trees', ho, hw, hj, rfl⟩
  · rw [realize_closeGroup hc, realize]
    cases Tree.values trees <;> rfl
  · simp only [realize]
    cases Tree.values trees with
    | error f => rfl
    | ok as => exact (Stacks.result_pushOperator_waits (s := ⟨operators, as⟩) hop hw).symm
  · simp only at ho hj
    subst ho
    simp only [realize, values_join hj]
    cases Tree.values trees with
    | error f => rfl
    | ok as => exact (Stacks.result_pushOperator_reduces hop hw as).symm

theorem realize_feed {item : Item α} {o o' : Outline α} (h : o.feed item = some o') :
    o'.realize = o.realize.bind fun s => (s.feed item).toLogged.result := by
  cases item with
  | operator op => exact realize_pushOperator h
  | operand a =>
    cases h
    simp only [realize, pushTree, Tree.values]
    cases Tree.values o.trees <;> rfl

/-- The moves of an outline are the moves of the stacks it stands for. -/
theorem realize_feedAll {items : List (Item α)} {o o' : Outline α}
    (h : o.feedAll items = some o') :
    o'.realize = o.realize.bind fun s => (s.feedAll items).toLogged.result := by
  induction items generalizing o with
  | nil =>
    cases h
    cases o'.realize <;> rfl
  | cons item items ih =>
    obtain ⟨p, hp, hrest⟩ := Option.bind_eq_some_iff.1 h
    rw [ih hrest, realize_feed hp]
    cases o.realize with
    | error f => rfl
    | ok s => exact (Outcome.result_andThen (s.feed item) (Stacks.feedAll items)).symm

theorem values_drain {operators : List Operator} {trees trees' : List (Tree (DenseMatrix α))}
    (h : drain operators trees = some trees') :
    Tree.values trees' =
      (Tree.values trees).bind fun as => (Stacks.drain operators as).toLogged.result := by
  induction operators generalizing trees with
  | nil =>
    cases h
    cases Tree.values trees' <;> rfl
  | cons op operators ih =>
    obtain ⟨joined, hj, hd⟩ := Option.bind_eq_some_iff.1 h
    have hop : op ≠ .opening := by
      rintro rfl
      cases hj
    rw [ih hd, values_join hj]
    cases Tree.values trees with
    | error f => rfl
    | ok as => exact (Stacks.result_drain_cons hop operators as).symm

theorem value_finish {o : Outline α} {t : Tree (DenseMatrix α)} (h : o.finish = some t) :
    t.value = o.realize.bind fun s => s.finish.result := by
  have hv := values_drain (drain_of_finish h)
  simp only [realize, Stacks.result_finish]
  -- `hv` says that draining the values gives the value of the one tree that is left
  cases hb : Tree.values o.trees with
  | error f =>
    rw [hb] at hv
    cases ht : t.value with
    | error g => simpa [Tree.values, ht, Except.bind, Except.map] using hv
    | ok a => simp [Tree.values, ht, Except.bind, Except.map] at hv
  | ok as =>
    rw [hb] at hv
    show t.value = (Stacks.drain o.operators as).toLogged.result.bind _
    rw [show (Stacks.drain o.operators as).toLogged.result = Tree.values [t] from hv.symm]
    cases ht : t.value <;> simp [Tree.values, ht, Except.bind, Except.map]

/-! ## §3 Whole runs -/

theorem exists_closeGroup {operators : List Operator} {trees : List (Tree (DenseMatrix α))}
    {as : List (DenseMatrix α)} {s : Stacks α} (hv : Tree.values trees = .ok as)
    (h : (Stacks.closeGroup operators as).toLogged.result = .ok s) :
    ∃ o', closeGroup operators trees = some o' := by
  induction operators generalizing trees as with
  | nil => cases h
  | cons op operators ih =>
    by_cases hop : op = .opening
    · subst hop
      exact ⟨_, rfl⟩
    · rw [Stacks.result_closeGroup_cons hop] at h
      obtain ⟨bs, hr, hc⟩ := bind_eq_ok_iff.1 h
      obtain ⟨trees', hj⟩ := exists_join hop hv hr
      obtain ⟨o', ho'⟩ := ih (by rw [values_join hj, hv]; exact hr) hc
      exact ⟨o', by rw [closeGroup_cons hop, hj]; exact ho'⟩

theorem exists_pushOperator {op : Operator} {o : Outline α} {s s' : Stacks α}
    (ho : o.realize = .ok s) (h : (s.pushOperator op).toLogged.result = .ok s') :
    ∃ o', o.pushOperator op = some o' := by
  obtain ⟨operators, trees⟩ := o
  obtain ⟨as, hv, rfl⟩ := map_eq_ok_iff.1 ho
  by_cases hop : op = .closing
  · subst hop
    exact exists_closeGroup hv h
  · cases operators with
    | nil => exact ⟨_, if_neg hop⟩
    | cons top operators =>
      rw [pushOperator, if_neg hop]
      cases hw : Stacks.waitsAbove op top with
      | true => exact ⟨⟨op :: top :: operators, trees⟩, by simp [hw]⟩
      | false =>
        rw [Stacks.result_pushOperator_reduces hop hw] at h
        obtain ⟨bs, hr, -⟩ := map_eq_ok_iff.1 h
        have htop : top ≠ .opening := by
          rintro rfl
          simp [Stacks.waitsAbove] at hw
        obtain ⟨trees', hj⟩ := exists_join htop hv hr
        exact ⟨⟨op :: operators, trees'⟩, by simp [hw, hj]⟩

/-- Items that the stacks take without fault are taken by an outline. -/
theorem exists_feedAll {items : List (Item α)} {o : Outline α} {s s' : Stacks α}
    (ho : o.realize = .ok s) (h : (s.feedAll items).toLogged.result = .ok s') :
    ∃ o', o.feedAll items = some o' := by
  induction items generalizing o s with
  | nil => exact ⟨o, rfl⟩
  | cons item items ih =>
    rw [Stacks.feedAll, Outcome.result_andThen] at h
    obtain ⟨t, hfeed, hrest⟩ := bind_eq_ok_iff.1 h
    have hp : ∃ p, o.feed item = some p := by
      cases item with
      | operator op => exact exists_pushOperator ho hfeed
      | operand a => exact ⟨_, rfl⟩
    obtain ⟨p, hp⟩ := hp
    obtain ⟨o', ho'⟩ := ih (by rw [realize_feed hp, ho]; exact hfeed) hrest
    exact ⟨o', by rw [feedAll_cons, hp]; exact ho'⟩

theorem exists_drain {operators : List Operator} {trees : List (Tree (DenseMatrix α))}
    {as bs : List (DenseMatrix α)} (hv : Tree.values trees = .ok as)
    (h : (Stacks.drain operators as).toLogged.result = .ok bs) :
    ∃ trees', drain operators trees = some trees' := by
  induction operators generalizing trees as with
  | nil => exact ⟨trees, rfl⟩
  | cons op operators ih =>
    by_cases hop : op = .opening
    · subst hop
      cases h
    · rw [Stacks.result_drain_cons hop] at h
      obtain ⟨cs, hr, hd⟩ := bind_eq_ok_iff.1 h
      obtain ⟨joined, hj⟩ := exists_join hop hv hr
      obtain ⟨trees', ht⟩ := ih (by rw [values_join hj, hv]; exact hr) hd
      exact ⟨trees', by rw [drain, hj]; exact ht⟩

theorem exists_finish {o : Outline α} {s : Stacks α} {a : DenseMatrix α}
    (ho : o.realize = .ok s) (h : s.finish.result = .ok a) : ∃ t, o.finish = some t := by
  obtain ⟨as, hv, rfl⟩ := map_eq_ok_iff.1 ho
  rw [Stacks.result_finish] at h
  obtain ⟨bs, hd, hbs⟩ := bind_eq_ok_iff.1 h
  obtain ⟨trees', ht⟩ := exists_drain hv hd
  have hlen : bs.length = trees'.length :=
    Tree.length_of_values (by rw [values_drain ht, hv]; exact hd)
  match bs, trees', hbs with
  | [b], [t], _ => exact ⟨t, by rw [finish, ht]⟩
  | [b], [], _ => simp at hlen
  | [b], t :: u :: rest, _ => simp at hlen

/-- The value of items is the value of the tree they come down to, or the first fault on the way to
that value. -/
theorem result_evaluateItems {items : List (Item α)} {t : Tree (DenseMatrix α)}
    (h : ofItems? items = some t) : (evaluateItems items).result = t.value := by
  obtain ⟨o, ho, ht⟩ := Option.bind_eq_some_iff.1 h
  rw [value_finish ht, realize_feedAll ho]
  exact Logged.result_bind _ _

/-- Items that have a value come down to a tree. -/
theorem exists_ofItems? {items : List (Item α)} {a : DenseMatrix α}
    (h : (evaluateItems items).result = .ok a) : ∃ t, ofItems? items = some t := by
  rw [evaluateItems, Logged.result_bind] at h
  obtain ⟨s, hs, ha⟩ := bind_eq_ok_iff.1 h
  obtain ⟨o, ho⟩ := exists_feedAll (o := empty) rfl hs
  obtain ⟨t, ht⟩ := exists_finish (by rw [realize_feedAll ho]; exact hs) ha
  exact ⟨t, by rw [ofItems?, ho]; exact ht⟩

end Outline

end MatrixCalc
