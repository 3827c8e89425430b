import MatrixCalc.Proofs.Outline.Value

/-!
# Arrivals

Which operators wait is a matter of the operators that arrived alone: no operand and no shape has a
say in it. `Item.waitingAfter` computes the waiting operators from the items. Outlines and stacks
agree with it as long as no move fails, and a move that fails leaves a lower part of what waited.

So what holds of the waiting operators throughout a run can be shown without the operands
(`Throughout`), and holds of every state the stacks reach (`state_feedAll`).
-/

namespace MatrixCalc

universe u

/-! ## §1 Operators without operands -/

/-- What waits below the last opening bracket. -/
def Operator.dropGroup : List Operator → Option (List Operator)
  | [] => none
  | .opening :: below => some below
  | _ :: below => dropGroup below

def Operator.arrive (op : Operator) (waiting : List Operator) : Option (List Operator) :=
  if op = .closing then dropGroup waiting
  else match waiting with
    | [] => some [op]
    | top :: below =>
      if Stacks.waitsAbove op top then some (op :: top :: below) else some (op :: below)

namespace Operator

theorem dropGroup_cons {op : Operator} (h : op ≠ .opening) (below : List Operator) :
    dropGroup (op :: below) = dropGroup below := by
  cases op <;> first | rfl | exact absurd rfl h

theorem dropGroup_of_not_mem {above : List Operator} (h : .opening ∉ above)
    (below : List Operator) : dropGroup (above ++ .opening :: below) = some below := by
  induction above with
  | nil => rfl
  | cons op above ih =>
    have hop : op ≠ .opening := fun heq => h (heq ▸ List.mem_cons_self)
    rw [List.cons_append, dropGroup_cons hop]
    exact ih fun hmem => h (List.mem_cons_of_mem _ hmem)

theorem dropGroup_eq_some {w below : List Operator} (h : dropGroup w = some below) :
    ∃ above, .opening ∉ above ∧ w = above ++ .opening :: below := by
  induction w with
  | nil => cases h
  | cons op w ih =>
    by_cases hop : op = .opening
    · subst hop
      cases h
      exact ⟨[], by simp, rfl⟩
    · rw [dropGroup_cons hop] at h
      obtain ⟨above, hmem, rfl⟩ := ih h
      refine ⟨op :: above, ?_, rfl⟩
      rintro (_ | ⟨_, hm⟩)
      · exact hop rfl
      · exact hmem hm

theorem arrive_waits {op : Operator} {w : List Operator} (hop : op ≠ .closing)
    (h : ∀ top ∈ w.head?, Stacks.waitsAbove op top = true) : op.arrive w = some (op :: w) := by
  unfold arrive
  rw [if_neg hop]
  cases w with
  | nil => rfl
  | cons top below => exact if_pos (h top rfl)

theorem arrive_opening (w : List Operator) : arrive .opening w = some (.opening :: w) :=
  arrive_waits (by simp) fun top _ => by simp [Stacks.waitsAbove]

theorem arrive_pops {op top : Operator} {below : List Operator} (hop : op ≠ .closing)
    (h : Stacks.waitsAbove op top = false) : op.arrive (top :: below) = some (op :: below) := by
  simp only [arrive, if_neg hop, h, Bool.false_eq_true, if_false]

theorem arrive_cases {op : Operator} {w w' : List Operator} (h : op.arrive w = some w') :
    (op = .closing ∧ dropGroup w = some w') ∨ (op ≠ .closing ∧ w' = op :: w) ∨
      (op ≠ .closing ∧ ∃ top below, top ≠ .opening ∧ w = top :: below ∧ w' = op :: below) := by
  by_cases hop : op = .closing
  · subst hop
    exact .inl ⟨rfl, h⟩
  · unfold arrive at h
    rw [if_neg hop] at h
    cases w with
    | nil => exact .inr (.inl ⟨hop, (Option.some.inj h).symm⟩)
    | cons top below =>
      dsimp only at h
      by_cases hw : Stacks.waitsAbove op top = true
      · rw [if_pos hw] at h
        exact .inr (.inl ⟨hop, (Option.some.inj h).symm⟩)
      · rw [if_neg hw] at h
        refine .inr (.inr ⟨hop, top, below, ?_, rfl, (Option.some.inj h).symm⟩)
        rintro rfl
        simp [Stacks.waitsAbove] at hw

end Operator

namespace Item

variable {α : Type u}

def arrive (item : Item α) (waiting : List Operator) : Option (List Operator) :=
  match item with
  | operator op => op.arrive waiting
  | operand _ => some waiting

def waitingAfter : List (Item α) → List Operator → Option (List Operator)
  | [], waiting => some waiting
  | item :: items, waiting => (item.arrive waiting).bind (waitingAfter items)

theorem waitingAfter_append (xs ys : List (Item α)) (w : List Operator) :
    waitingAfter (xs ++ ys) w = (waitingAfter xs w).bind (waitingAfter ys) := by
  induction xs generalizing w with
  | nil => rfl
  | cons x xs ih =>
    rw [List.cons_append, waitingAfter, waitingAfter, Option.bind_assoc]
    exact Option.bind_congr fun w' _ => ih w'

/-! ## §2 Throughout a run -/

/-- A property of the waiting operators holds before, between and after some items. -/
def Throughout (P : List Operator → Prop) : List (Item α) → List Operator → Prop
  | [], waiting => P waiting
  | item :: items, waiting =>
    P waiting ∧ ∀ next ∈ item.arrive waiting, Throughout P items next

variable {P : List Operator → Prop}

theorem Throughout.here {items : List (Item α)} {w : List Operator} (h : Throughout P items w) :
    P w := by
  cases items with
  | nil => exact h
  | cons item items => exact h.1

theorem throughout_append {xs ys : List (Item α)} {w : List Operator} :
    Throughout P (xs ++ ys) w ↔
      Throughout P xs w ∧ ∀ w' ∈ waitingAfter xs w, Throughout P ys w' := by
  induction xs generalizing w with
  | nil =>
    constructor
    · intro h
      refine ⟨Throughout.here h, ?_⟩
      rintro w' ⟨⟩
      exact h
    · rintro ⟨-, h⟩
      exact h w rfl
  | cons x xs ih =>
    simp only [List.cons_append, Throughout, ih, waitingAfter, Option.mem_def,
      Option.bind_eq_some_iff]
    constructor
    · rintro ⟨hw, h⟩
      refine ⟨⟨hw, fun next hnext => (h next hnext).1⟩, ?_⟩
      rintro w' ⟨next, hnext, hw'⟩
      exact (h next hnext).2 w' hw'
    · rintro ⟨⟨hw, h⟩, hrest⟩
      exact ⟨hw, fun next hnext => ⟨h next hnext, fun w' hw' => hrest w' ⟨next, hnext, hw'⟩⟩⟩

theorem throughout_iff {items : List (Item α)} {w : List Operator} :
    Throughout P items w ↔ ∀ pre, pre <+: items → ∀ w' ∈ waitingAfter pre w, P w' := by
  constructor
  · rintro h pre ⟨rest, rfl⟩ w' hw'
    exact ((throughout_append.1 h).2 w' hw').here
  · intro h
    induction items generalizing w with
    | nil => exact h [] (List.prefix_refl []) w rfl
    | cons item items ih =>
      refine ⟨h [] List.nil_prefix w rfl, fun next hnext => ih fun pre hpre w' hw' => ?_⟩
      refine h (item :: pre) (List.cons_prefix_cons.2 ⟨rfl, hpre⟩) w' ?_
      rw [waitingAfter, Option.mem_def.1 hnext]
      exact hw'

end Item

/-! ## §3 The waiting operators of an outline -/

namespace Outline

variable {α : Type u}

theorem operators_closeGroup {operators : List Operator} {trees : List (Tree (DenseMatrix α))}
    {o' : Outline α} (h : closeGroup operators trees = some o') :
    Operator.dropGroup operators = some o'.operators := by
  induction operators generalizing trees with
  | nil => cases h
  | cons op operators ih =>
    by_cases hop : op = .opening
    · subst hop
      cases h
      rfl
    · rw [closeGroup_cons hop] at h
      obtain ⟨joined, -, hc⟩ := Option.bind_eq_some_iff.1 h
      rw [Operator.dropGroup_cons hop]
      exact ih hc

theorem operators_feed {item : Item α} {o o' : Outline α} (h : o.feed item = some o') :
    item.arrive o.operators = some o'.operators := by
  cases item with
  | operand a =>
    cases h
    rfl
  | operator op =>
    rcases pushOperator_cases h with
      ⟨rfl, hc⟩ | ⟨hop, hw, rfl⟩ | ⟨hop, top, below, joined, ho, hw, -, rfl⟩
    · exact operators_closeGroup hc
    · exact Operator.arrive_waits hop hw
    · rw [ho]
      exact Operator.arrive_pops hop hw

theorem operators_feedAll {items : List (Item α)} {o o' : Outline α}
    (h : o.feedAll items = some o') : Item.waitingAfter items o.operators = some o'.operators := by
  induction items generalizing o with
  | nil =>
    cases h
    rfl
  | cons item items ih =>
    obtain ⟨p, hp, hrest⟩ := Option.bind_eq_some_iff.1 h
    rw [Item.waitingAfter, operators_feed hp]
    exact ih hrest

theorem operators_of_realize [Scalar α] {o : Outline α} {s : Stacks α}
    (h : o.realize = .ok s) : s.operators = o.operators := by
  obtain ⟨as, -, rfl⟩ := map_eq_ok_iff.1 h
  rfl

end Outline

/-! ## §4 The waiting operators of the stacks -/

namespace Stacks

variable {α : Type u} [Scalar α]

theorem operators_feedAll {items : List (Item α)} {s s' : Stacks α}
    (h : (s.feedAll items).toLogged.result = .ok s') :
    Item.waitingAfter items s.operators = some s'.operators := by
  -- the stacks are those of an outline in which every tree is a leaf
  let o : Outline α := ⟨s.operators, s.operands.map .leaf⟩
  have ho : o.realize = .ok s := by rw [Outline.realize, Tree.values_map_leaf]; rfl
  obtain ⟨o', ho'⟩ := Outline.exists_feedAll ho h
  have hs' : o'.realize = .ok s' := by
    rw [Outline.realize_feedAll ho', ho]
    exact h
  rw [Outline.operators_of_realize hs']
  exact Outline.operators_feedAll ho'

theorem operators_feed {item : Item α} {s : Stacks α} (h : (s.feed item).fault? = none) :
    item.arrive s.operators = some (s.feed item).state.operators := by
  have hone : (s.feedAll [item]).toLogged.result = .ok (s.feed item).state := by
    rw [feedAll, Outcome.result_andThen, Outcome.result_eq_ok_iff.2 ⟨h, rfl⟩]
    rfl
  have hw := operators_feedAll hone
  simpa [Item.waitingAfter] using hw

theorem suffix_closeGroup (operators : List Operator) (as : List (DenseMatrix α)) :
    (closeGroup operators as).state.operators <:+ operators := by
  induction operators generalizing as with
  | nil => exact List.suffix_rfl
  | cons op operators ih =>
    by_cases hop : op = .opening
    · subst hop
      exact List.suffix_cons _ _
    · rw [closeGroup_cons hop]
      cases hf : (reduce op as).fault? with
      | some f =>
        simp only [Outcome.andThen, Outcome.map, hf]
        exact List.suffix_cons _ _
      | none =>
        simp only [Outcome.andThen, Outcome.map, hf]
        exact (ih _).trans (List.suffix_cons _ _)

/-- A move that fails leaves a lower part of the operators that waited. -/
theorem suffix_feed {item : Item α} {s : Stacks α} {f : Fault}
    (h : (s.feed item).fault? = some f) : (s.feed item).state.operators <:+ s.operators := by
  cases item with
  | operand a => cases h
  | operator op =>
    obtain ⟨operators, operands⟩ := s
    by_cases hop : op = .closing
    · subst hop
      exact suffix_closeGroup operators operands
    · simp only [feed, pushOperator, if_neg hop] at h ⊢
      cases operators with
      | nil => cases h
      | cons top below =>
        by_cases hw : waitsAbove op top = true
        · simp only [hw, if_true] at h
          cases h
        · cases hr : (reduce top operands).fault? with
          | none =>
            simp only [hw, Bool.false_eq_true, if_false, Outcome.after, Outcome.andThen,
              Outcome.map, hr] at h
            cases h
          | some g =>
            simp only [hw, Bool.false_eq_true, if_false, Outcome.after, Outcome.andThen,
              Outcome.map, hr]
            exact List.suffix_cons _ _

/-- What holds of the waiting operators throughout holds of the state that the stacks reach, also
of the one that a failed move leaves. -/
theorem state_feedAll {P : List Operator → Prop} (hP : ∀ {w w'}, P w → w' <:+ w → P w')
    {items : List (Item α)} {s : Stacks α} (h : Item.Throughout P items s.operators) :
    P (s.feedAll items).state.operators := by
  induction items generalizing s with
  | nil => exact h
  | cons item items ih =>
    have hstate : s.feedAll (item :: items) = (s.feed item).andThen (feedAll items) := rfl
    rw [hstate]
    cases hf : (s.feed item).fault? with
    | some f =>
      simp only [Outcome.andThen, hf]
      exact hP h.here (suffix_feed hf)
    | none =>
      simp only [Outcome.andThen, hf]
      exact ih (h.2 _ (operators_feed hf))

/-- In a run that does not fail, the states it reaches are all that the arrivals go through. -/
theorem throughout_of_states {P : List Operator → Prop} {items : List (Item α)} {s : Stacks α}
    (h : (s.feedAll items).fault? = none)
    (hP : ∀ pre, pre <+: items → P (s.feedAll pre).state.operators) :
    Item.Throughout P items s.operators := by
  refine Item.throughout_iff.2 ?_
  rintro pre ⟨rest, rfl⟩ w hw
  have hall := Outcome.result_eq_ok_iff.2 ⟨h, rfl⟩
  rw [result_feedAll_append] at hall
  obtain ⟨t, ht, -⟩ := bind_eq_ok_iff.1 hall
  obtain rfl := Option.some.inj ((operators_feedAll ht).symm.trans hw)
  rw [← (Outcome.result_eq_ok_iff.1 ht).2]
  exact hP pre (List.prefix_append pre rest)

end Stacks

end MatrixCalc
