import MatrixCalc.Proofs.Outline.Events

/-!
# The journal of a tree

A tree can be computed with a journal: the operands from left to right, and then the operator
(`Tree.logged`). Reductions are delayed and mix with arrivals, but what they write is in the end the
journal of the tree that the items come down to (`work_evaluateItems`). For the trees that wait hold
all reductions so far, those of the longest waiting first.

So a warning is due to an inversion of that tree: there is one for each matrix to be inverted whose
reduced form is not the identity, in the order of the inversions, and no other (`warnings_logged`).

§1 arrivals of an outline · §2 the journal of a tree · §3 the notes of reductions · §4 warnings
-/

namespace MatrixCalc

universe u

variable {α : Type u}

/-! ## §1 Arrivals of an outline -/

namespace Outline

/-- Closing a group drains what waits above its opening bracket. -/
theorem closeGroup_eq_drain {above : List Operator} (habove : .opening ∉ above)
    (below : List Operator) (trees : List (Tree (DenseMatrix α))) :
    closeGroup (above ++ .opening :: below) trees = (drain above trees).map (mk below) := by
  induction above generalizing trees with
  | nil => rfl
  | cons op above ih =>
    obtain ⟨hop, hrest⟩ := List.ne_and_not_mem_of_not_mem_cons habove
    rw [List.cons_append, closeGroup_cons (Ne.symm hop), drain]
    cases join op trees with
    | none => rfl
    | some joined => exact ih hrest joined

/-- The operators that an item reduces are drained as it arrives. -/
theorem feed_eq_drain {item : Item α} {waiting : List Waiter} {v : List Operator}
    (h : item.arrive (waiting.map Waiter.op) = some v) (place : Nat)
    (trees : List (Tree (DenseMatrix α))) :
    (mk (waiting.map Waiter.op) trees).feed item =
      (drain ((item.reduced waiting).map Waiter.op) trees).map fun joined =>
        mk ((item.leaves place waiting).map Waiter.op)
          (item.operand?.toList.map Tree.leaf ++ joined) := by
  cases item with
  | operand a => rfl
  | operator op =>
    show pushOperator op _ =
      (drain ((Waiter.reduced op waiting).map Waiter.op) trees).map
        (mk ((Waiter.after op place waiting).map Waiter.op))
    rcases Waiter.arrive_cases h place with
      ⟨rfl, above, w, below, habove, hopen, rfl, -, hreduced, hafter⟩ |
      ⟨hop, -, hwaits, hreduced, hafter⟩ |
      ⟨hop, top, below, hopen, rfl, -, hbinds, hreduced, hafter⟩
    · rw [hreduced, hafter, pushOperator, if_pos rfl, List.map_append, List.map_cons, hopen]
      exact closeGroup_eq_drain (Waiter.opening_not_mem_map habove) _ trees
    · rw [hreduced, hafter, pushOperator_waits hop hwaits]
      rfl
    · rw [hreduced, hafter, pushOperator, if_neg hop]
      simp only [List.map_cons, List.map_nil, hbinds, Bool.false_eq_true, if_false, drain]
      cases join top.op trees <;> rfl

end Outline

/-! ## §2 The journal of a tree -/

variable [Scalar α]

namespace Tree

/-- The value of a tree with a journal: the operands' values from left to right, then the
operator. -/
def logged : Tree (DenseMatrix α) → Logged (DenseMatrix α)
  | leaf a => pure a
  | unary op t => do
    let a ← t.logged
    let b ← op.apply a
    ⟨[.reduced (.unary op) b.toShape], .ok b⟩
  | binary op l r => do
    let a ← l.logged
    let b ← r.logged
    let c ← .ofExcept ((op.apply a b).mapError .calculation)
    ⟨[.reduced (.binary op) c.toShape], .ok c⟩

theorem result_logged (t : Tree (DenseMatrix α)) : t.logged.result = t.value := by
  have hok (x : Except Fault (DenseMatrix α)) : (x.bind fun b => .ok b) = x := by
    cases x <;> rfl
  induction t with
  | leaf a => rfl
  | unary op t ih =>
    simp only [logged, value_unary, Logged.result_bind, ih]
    exact congrArg _ (funext fun a => hok _)
  | binary op l r ihl ihr =>
    simp only [logged, value_binary, Logged.result_bind, ihl, ihr]
    exact congrArg _ (funext fun a => congrArg _ (funext fun b => hok _))

end Tree

namespace Outline

/-- What the reductions of some waiting trees write, those of the longest waiting first. -/
def work (trees : List (Tree (DenseMatrix α))) : List Note :=
  trees.reverse.flatMap fun t => t.logged.notes

theorem work_cons (t : Tree (DenseMatrix α)) (trees : List (Tree (DenseMatrix α))) :
    work (t :: trees) = work trees ++ t.logged.notes := by
  simp [work]

theorem work_append_leaf (item : Item α) (trees : List (Tree (DenseMatrix α))) :
    work (item.operand?.toList.map Tree.leaf ++ trees) = work trees := by
  cases item with
  | operator op => rfl
  | operand a => exact (work_cons _ trees).trans (List.append_nil _)

/-! ## §3 The notes of reductions -/

/-- A reduction writes what comes to the journal of its tree. -/
theorem work_join {op : Operator} {trees joined : List (Tree (DenseMatrix α))}
    {as bs : List (DenseMatrix α)} (hv : Tree.values trees = .ok as)
    (hj : join op trees = some joined) (h : (Stacks.reduce op as).toLogged.result = .ok bs) :
    work joined = work trees ++ (Stacks.reduce op as).notes := by
  match op, trees, hj with
  | .unary u, t :: rest, hj =>
    cases hj
    obtain ⟨below, -, hlast⟩ := bind_eq_ok_iff.1 hv
    obtain ⟨a, ha, rfl⟩ := map_eq_ok_iff.1 hlast
    rw [Stacks.result_reduce_unary] at h
    obtain ⟨b, hb, -⟩ := map_eq_ok_iff.1 h
    rw [work_cons, work_cons, Tree.logged, Logged.notes_bind_of_ok ((t.result_logged).trans ha),
      Logged.notes_bind_of_ok hb, List.append_assoc]
    simp only [Stacks.reduce, hb, Outcome.done]
  | .binary b, right :: left :: rest, hj =>
    cases hj
    obtain ⟨below, hbelow, hlast⟩ := bind_eq_ok_iff.1 hv
    obtain ⟨r, hr, rfl⟩ := map_eq_ok_iff.1 hlast
    obtain ⟨as, -, hfirst⟩ := bind_eq_ok_iff.1 hbelow
    obtain ⟨l, hl, rfl⟩ := map_eq_ok_iff.1 hfirst
    rw [Stacks.result_reduce_binary] at h
    obtain ⟨c, hc, -⟩ := map_eq_ok_iff.1 h
    have hb : b.apply l r = .ok c := by
      cases hb : b.apply l r with
      | error f => rw [hb] at hc; cases hc
      | ok d => rw [hb] at hc; cases hc; rfl
    rw [work_cons, work_cons, work_cons, Tree.logged,
      Logged.notes_bind_of_ok ((left.result_logged).trans hl),
      Logged.notes_bind_of_ok ((right.result_logged).trans hr),
      Logged.notes_bind_of_ok (b := c) hc]
    simp only [Stacks.reduce, hb, Outcome.done]
    simp [Logged.ofExcept]

theorem work_drain {operators : List Operator} {trees joined : List (Tree (DenseMatrix α))}
    {as bs : List (DenseMatrix α)} (hv : Tree.values trees = .ok as)
    (hd : drain operators trees = some joined)
    (h : (Stacks.drain operators as).toLogged.result = .ok bs) :
    work joined = work trees ++ (Stacks.drain operators as).notes := by
  induction operators generalizing trees as with
  | nil =>
    cases hd
    exact (List.append_nil _).symm
  | cons op operators ih =>
    obtain ⟨next, hj, hd⟩ := Option.bind_eq_some_iff.1 hd
    obtain ⟨-, cs, hreduce, hrest, hnotes⟩ := Stacks.drain_cons_eq_ok h
    have hnext : Tree.values next = .ok cs := by
      rw [values_join hj, hv]
      exact hreduce
    rw [ih hnext hd hrest, work_join hv hj hreduce, hnotes, List.append_assoc]

end Outline

namespace Stacks

theorem isWork_of_mem_reduce {op : Operator} {as bs : List (DenseMatrix α)}
    (h : (reduce op as).toLogged.result = .ok bs) :
    ∀ note ∈ (reduce op as).notes, note.isWork = true := by
  match op, as, h with
  | .unary u, a :: rest, h =>
    rw [result_reduce_unary] at h
    obtain ⟨b, hb, -⟩ := map_eq_ok_iff.1 h
    obtain ⟨pivots, hpivots, hnotes⟩ := Unary.notes_of_apply hb
    have hwarnings : ∀ note ∈ u.warnings a, note.isWork = true := by
      unfold Unary.warnings
      split <;> simp [Note.isWork]
    simp only [reduce, hb, Outcome.done, hnotes]
    refine List.forall_mem_append.2 ⟨List.forall_mem_append.2 ⟨?_, hwarnings⟩, ?_⟩
    · exact fun note hnote => (hpivots note hnote).2
    · exact List.forall_mem_singleton.2 rfl
  | .binary b, right :: left :: rest, h =>
    simp only [reduce] at h ⊢
    cases hb : b.apply left right with
    | error f => simp only [hb] at h; cases h
    | ok c => exact List.forall_mem_singleton.2 rfl
  | .opening, a :: rest, h => exact List.forall_mem_singleton.2 rfl

theorem isWork_of_mem_drain {operators : List Operator} {as bs : List (DenseMatrix α)}
    (h : (drain operators as).toLogged.result = .ok bs) :
    ∀ note ∈ (drain operators as).notes, note.isWork = true := by
  induction operators generalizing as with
  | nil => exact fun _ hnote => nomatch hnote
  | cons op operators ih =>
    obtain ⟨-, cs, hreduce, hrest, hnotes⟩ := drain_cons_eq_ok h
    rw [hnotes]
    exact List.forall_mem_append.2 ⟨isWork_of_mem_reduce hreduce, ih hrest⟩

/-- The arrival of an item writes a note on it, and then nothing but work. -/
theorem exists_work_feed {item : Item α} {s t : Stacks α}
    (h : (s.feed item).toLogged.result = .ok t) :
    ∃ work : List Note, (∀ note ∈ work, note.isWork = true) ∧
      (s.feed item).notes = item.note :: work := by
  obtain ⟨operators, as⟩ := s
  -- the places do not matter here
  obtain ⟨waiting, rfl⟩ := Waiter.exists_of_operators operators
  obtain ⟨bs, hdrain, -, hnotes⟩ := feed_eq_ok h 0
  exact ⟨_, isWork_of_mem_drain hdrain, hnotes⟩

end Stacks

namespace Outline

/-- What an arrival writes, but for the note on the item, comes to the journal of the trees. -/
theorem work_feed {item : Item α} {o o' : Outline α} {s s' : Stacks α} (ho : o.realize = .ok s)
    (h : o.feed item = some o') (hs : (s.feed item).toLogged.result = .ok s') :
    work o'.trees = work o.trees ++ (s.feed item).notes.filter Note.isWork := by
  obtain ⟨operators, trees⟩ := o
  obtain ⟨as, hv, rfl⟩ := map_eq_ok_iff.1 ho
  obtain ⟨waiting, rfl⟩ := Waiter.exists_of_operators operators
  rw [feed_eq_drain (operators_feed h) 0] at h
  obtain ⟨joined, hdrain, rfl⟩ := Option.map_eq_some_iff.1 h
  obtain ⟨bs, hbs, -, hnotes⟩ := Stacks.feed_eq_ok hs 0
  have hitem : item.note.isWork = false := by cases item <;> rfl
  rw [hnotes, work_append_leaf, work_drain hv hdrain hbs,
    List.filter_cons_of_neg (by simp [hitem]),
    List.filter_eq_self.2 (Stacks.isWork_of_mem_drain hbs)]

theorem work_feedAll {items : List (Item α)} {o o' : Outline α} {s s' : Stacks α}
    (ho : o.realize = .ok s) (h : o.feedAll items = some o')
    (hs : (s.feedAll items).toLogged.result = .ok s') :
    work o'.trees = work o.trees ++ (s.feedAll items).notes.filter Note.isWork := by
  induction items generalizing o s with
  | nil =>
    cases h
    exact (List.append_nil _).symm
  | cons item items ih =>
    obtain ⟨p, hp, hrest⟩ := Option.bind_eq_some_iff.1 h
    rw [Stacks.feedAll, Outcome.result_andThen] at hs
    obtain ⟨t, hfeed, hlater⟩ := bind_eq_ok_iff.1 hs
    obtain ⟨hfault, hstate⟩ := Outcome.result_eq_ok_iff.1 hfeed
    have hnext : p.realize = .ok t := by
      rw [realize_feed hp, ho]
      exact hfeed
    rw [ih hnext hrest hlater, work_feed ho hp hfeed, Stacks.feedAll,
      Outcome.notes_andThen hfault, hstate, List.filter_append, List.append_assoc]

/-- The reductions of a run write the journal of the tree that its items come down to. -/
theorem work_evaluateItems {items : List (Item α)} {t : Tree (DenseMatrix α)} {a : DenseMatrix α}
    (ht : ofItems? items = some t) (h : (evaluateItems items).result = .ok a) :
    (evaluateItems items).notes.filter Note.isWork = t.logged.notes := by
  obtain ⟨o, ho, hfinish⟩ := Option.bind_eq_some_iff.1 ht
  rw [evaluateItems, Logged.result_bind] at h
  obtain ⟨s, hfed, ha⟩ := bind_eq_ok_iff.1 h
  obtain ⟨hdrain, hnotes⟩ := Stacks.notes_finish ha
  have hs : o.realize = .ok s := by
    rw [realize_feedAll ho]
    exact hfed
  have hwork := work_feedAll (o := empty) rfl ho hfed
  obtain ⟨as, hv, rfl⟩ := map_eq_ok_iff.1 hs
  have hone := work_drain hv (drain_of_finish hfinish) hdrain
  rw [evaluateItems, Logged.notes_bind_of_ok hfed, hnotes, List.filter_append,
    List.filter_eq_self.2 (Stacks.isWork_of_mem_drain hdrain)]
  have hlast : work [t] = t.logged.notes := work_cons t []
  rw [← hlast, hone, hwork]
  rfl

end Outline

/-! ## §4 Warnings -/

/-- Warnings are given while operators are reduced. -/
theorem Note.ofLevel_warn (notes : List Note) :
    ofLevel .warn notes = ofLevel .warn (notes.filter isWork) := by
  rw [ofLevel, ofLevel, List.filter_filter]
  refine List.filter_congr fun note _ => ?_
  cases note <;> rfl

namespace Tree

/-- The matrices to be inverted in a tree, in the order of the inversions. -/
def inverted : Tree (DenseMatrix α) → List (DenseMatrix α)
  | leaf _ => []
  | unary op t => t.inverted ++ if op = .inverse then t.value.toOption.toList else []
  | binary _ l r => l.inverted ++ r.inverted

/-- In a tree with a value there is a matrix to be inverted for each inversion. -/
theorem length_inverted {t : Tree (DenseMatrix α)} {a : DenseMatrix α} (h : t.value = .ok a) :
    t.inverted.length = t.operators.count (.unary .inverse) := by
  induction t generalizing a with
  | leaf b => rfl
  | unary op t ih =>
    rw [value_unary] at h
    obtain ⟨b, hb, -⟩ := bind_eq_ok_iff.1 h
    rw [inverted, operators, List.length_append, ih hb, List.count_cons, hb]
    cases op <;> rfl
  | binary op l r ihl ihr =>
    rw [value_binary] at h
    obtain ⟨b, hb, h⟩ := bind_eq_ok_iff.1 h
    obtain ⟨c, hc, -⟩ := bind_eq_ok_iff.1 h
    rw [inverted, operators, List.length_append, ihl hb, ihr hc, List.count_append, List.count_cons]
    rfl

/-- The warnings in the journal of a tree: one for each matrix to be inverted whose reduced form is
not the identity, in the order of the inversions. -/
theorem warnings_logged {t : Tree (DenseMatrix α)} {a : DenseMatrix α} (h : t.value = .ok a) :
    Note.ofLevel .warn t.logged.notes =
      (t.inverted.filter fun b => !b.isRegular).map fun b => .singular b.rows := by
  induction t generalizing a with
  | leaf b => rfl
  | unary op t ih =>
    rw [value_unary] at h
    obtain ⟨b, hb, hc⟩ := bind_eq_ok_iff.1 h
    obtain ⟨pivots, hpivots, hnotes⟩ := Unary.notes_of_apply hc
    have hnone : Note.ofLevel .warn pivots = [] :=
      List.filter_eq_nil_iff.2 fun note hnote => by simp [(hpivots note hnote).1]
    rw [logged, Logged.notes_bind_of_ok (t.result_logged.trans hb), Logged.notes_bind_of_ok hc,
      hnotes, Note.ofLevel_append, Note.ofLevel_append, Note.ofLevel_append, ih hb, hnone, inverted,
      List.filter_append, List.map_append, hb, Unary.warnings]
    cases op <;> cases hregular : b.isRegular <;>
      simp [Except.toOption, hregular, Note.ofLevel, Note.level]
  | binary op l r ihl ihr =>
    rw [value_binary] at h
    obtain ⟨b, hb, h⟩ := bind_eq_ok_iff.1 h
    obtain ⟨c, hc, h⟩ := bind_eq_ok_iff.1 h
    rw [logged, Logged.notes_bind_of_ok (l.result_logged.trans hb),
      Logged.notes_bind_of_ok (r.result_logged.trans hc), Logged.notes_bind_of_ok (b := a) h,
      Note.ofLevel_append, Note.ofLevel_append, ihl hb, ihr hc, inverted, List.filter_append,
      List.map_append]
    simp [Logged.ofExcept, Note.ofLevel, Note.level]

end Tree

end MatrixCalc
