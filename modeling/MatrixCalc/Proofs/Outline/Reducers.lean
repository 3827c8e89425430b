import MatrixCalc.Proofs.Outline.Soundness

/-!
# What is reduced

The moves of the stacks with another reduction in place of `Stacks.reduce`. If the two do the same
to unary and binary operators on well-formed operands, the moves of sound stacks are the same
(`Stacks.feedWith_eq`, `Stacks.finishWith_eq`). So no move ever asks for the reduction of a bracket,
and none for that of operands that are not well formed. One such reduction is `reduceChecked`, which
counts the entries of each sum, difference and product again before it goes on.

§1 moves with another reduction · §2 reductions that agree · §3 a reduction that checks its results
-/

namespace MatrixCalc

universe u

/-! ## §1 Moves with another reduction -/

/-- What becomes of the operands if an operator is reduced. -/
abbrev Reducer (α : Type u) := Operator → List (DenseMatrix α) → Outcome (List (DenseMatrix α))

namespace Stacks

variable {α : Type u} [Scalar α]

def closeGroupWith (red : Reducer α) : List Operator → List (DenseMatrix α) → Outcome (Stacks α)
  | [], operands => .failed ⟨[], operands⟩ (.calculation .unbalancedBrackets)
  | .opening :: operators, operands => .done ⟨operators, operands⟩ []
  | op :: operators, operands =>
    ((red op operands).map (Stacks.mk operators)).andThen fun s =>
      closeGroupWith red operators s.operands

def pushOperatorWith (red : Reducer α) (op : Operator) (s : Stacks α) : Outcome (Stacks α) :=
  Outcome.after [.operator op] <|
    if op = .closing then closeGroupWith red s.operators s.operands
    else match s.operators with
      | [] => .done { s with operators := [op] } []
      | top :: operators =>
        if waitsAbove op top then .done { s with operators := op :: top :: operators } []
        else ((red top s.operands).map (Stacks.mk operators)).andThen fun t =>
          .done { t with operators := op :: t.operators } []

def feedWith (red : Reducer α) (item : Item α) (s : Stacks α) : Outcome (Stacks α) :=
  match item with
  | .operator op => s.pushOperatorWith red op
  | .operand a => s.pushOperand a

def drainWith (red : Reducer α) :
    List Operator → List (DenseMatrix α) → Outcome (List (DenseMatrix α))
  | [], operands => .done operands []
  | .opening :: _, operands => .failed operands (.calculation .unbalancedBrackets)
  | op :: operators, operands => (red op operands).andThen (drainWith red operators)

def finishWith (red : Reducer α) (s : Stacks α) : Logged (DenseMatrix α) := do
  match ← (drainWith red s.operators s.operands).toLogged with
  | [] => .fail (.calculation .emptyExpression)
  | [a] => return a
  | operands => .fail (.calculation (.leftoverOperands operands.length))

end Stacks

/-! ## §2 Reductions that agree -/

/-- A note on a result whose entries can be counted in a word. Notes on other things say nothing
about entries. -/
def Note.isCountable : Note → Bool
  | .reduced _ shape => shape.rows * shape.cols < DenseMatrix.wordCount
  | _ => true

/-- A reduction that does to operators on well-formed operands what `Stacks.reduce` does, as long as
the entries of the result can be counted. What it does to brackets is left open. -/
def Reducer.Agrees {α : Type u} [Scalar α] (red : Reducer α) : Prop :=
  ∀ op operands, op.arity ≠ 0 → (∀ a ∈ operands, a.WellFormed) →
    (∀ note ∈ (Stacks.reduce op operands).notes, note.isCountable = true) →
    red op operands = Stacks.reduce op operands

theorem Operator.arity_ne_zero {op : Operator} (hopen : op ≠ .opening) (hclosing : op ≠ .closing) :
    op.arity ≠ 0 := by
  cases op with
  | opening => exact absurd rfl hopen
  | closing => exact absurd rfl hclosing
  | unary u => exact Nat.one_ne_zero
  | binary b => exact Nat.succ_ne_zero 1

namespace Outcome

variable {σ : Type u} {x : Outcome σ} {f g : σ → Outcome σ}

theorem andThen_congr (h : x.fault? = none → f x.state = g x.state) :
    x.andThen f = x.andThen g := by
  unfold andThen
  cases hx : x.fault? with
  | none => rw [h hx]
  | some e => rfl

/-- The notes of two moves are those of the first and, if it succeeds, those of the second. -/
theorem forall_notes_andThen {P : Note → Prop} (h : ∀ note ∈ (x.andThen f).notes, P note) :
    (∀ note ∈ x.notes, P note) ∧ (x.fault? = none → ∀ note ∈ (f x.state).notes, P note) := by
  unfold andThen at h
  cases hx : x.fault? with
  | none =>
    rw [hx] at h
    obtain ⟨hfirst, hsecond⟩ := List.forall_mem_append.1 h
    exact ⟨hfirst, fun _ => hsecond⟩
  | some e =>
    rw [hx] at h
    exact ⟨h, fun hnone => nomatch hnone⟩

end Outcome

theorem Logged.forall_notes_bind {σ τ : Type u} {x : Logged σ} {f : σ → Logged τ} {P : Note → Prop}
    (h : ∀ note ∈ (x >>= f).notes, P note) :
    (∀ note ∈ x.notes, P note) ∧ ∀ s, x.result = .ok s → ∀ note ∈ (f s).notes, P note := by
  cases hx : x.result with
  | ok s =>
    rw [notes_bind_of_ok hx] at h
    obtain ⟨hfirst, hsecond⟩ := List.forall_mem_append.1 h
    exact ⟨hfirst, fun t ht => Except.ok.inj ht ▸ hsecond⟩
  | error e =>
    refine ⟨fun note hnote => h note ?_, fun s hs => nomatch hs⟩
    show note ∈ (Logged.bind x f).notes
    rw [Logged.bind, hx]
    exact hnote

theorem Logged.bind_congr {σ τ : Type u} {x : Logged σ} {f g : σ → Logged τ}
    (h : ∀ s, x.result = .ok s → f s = g s) : x >>= f = x >>= g := by
  show Logged.bind x f = Logged.bind x g
  unfold Logged.bind
  cases hx : x.result with
  | ok s => exact congrArg (Logged.after x.notes) (h s hx)
  | error e => rfl

namespace Stacks

variable {α : Type u} [Scalar α] {red : Reducer α} {operators : List Operator}
  {operands : List (DenseMatrix α)}

theorem closeGroupWith_eq (hred : red.Agrees) (hclosing : .closing ∉ operators)
    (hwell : ∀ a ∈ operands, a.WellFormed)
    (hnotes : ∀ note ∈ (closeGroup operators operands).notes, note.isCountable = true) :
    closeGroupWith red operators operands = closeGroup operators operands := by
  induction operators generalizing operands with
  | nil => rfl
  | cons op operators ih =>
    obtain ⟨hop, hrest⟩ := List.ne_and_not_mem_of_not_mem_cons hclosing
    by_cases hopen : op = .opening
    · subst hopen
      rfl
    have hstepWith : closeGroupWith red (op :: operators) operands =
        ((red op operands).map (mk operators)).andThen fun s =>
          closeGroupWith red operators s.operands := by
      cases op <;> first | rfl | exact absurd rfl hopen
    rw [closeGroup_cons hopen] at hnotes
    obtain ⟨hfirst, hlater⟩ := Outcome.forall_notes_andThen hnotes
    have hsame := hred op operands (Operator.arity_ne_zero hopen (Ne.symm hop)) hwell hfirst
    rw [closeGroup_cons hopen, hstepWith, hsame]
    exact Outcome.andThen_congr fun hok =>
      ih hrest (keeps_reduce (Ne.symm hop) hwell).state (hlater hok)

/-- Sound stacks take an item alike with every reduction that agrees. -/
theorem feedWith_eq (hred : red.Agrees) {s : Stacks α} (hs : s.Sound) {item : Item α}
    (hnotes : ∀ note ∈ (s.feed item).notes, note.isCountable = true) :
    s.feedWith red item = s.feed item := by
  obtain ⟨operators, operands⟩ := s
  cases item with
  | operand a => rfl
  | operator op =>
    unfold feedWith feed pushOperatorWith pushOperator
    refine congrArg (Outcome.after [.operator op]) ?_
    unfold feed pushOperator at hnotes
    replace hnotes := (List.forall_mem_append.1 hnotes).2
    by_cases hop : op = .closing
    · rw [if_pos hop] at hnotes ⊢
      rw [if_pos hop]
      exact closeGroupWith_eq hred hs.closing hs.operands hnotes
    rw [if_neg hop] at hnotes ⊢
    rw [if_neg hop]
    cases operators with
    | nil => rfl
    | cons top operators =>
      dsimp only at hnotes ⊢
      by_cases hw : waitsAbove op top = true
      · rw [if_pos hw, if_pos hw]
      · rw [if_neg hw] at hnotes ⊢
        rw [if_neg hw]
        -- the operator on top is no bracket, for an opening one would not have been reduced
        have hopen : top ≠ .opening := by
          rintro rfl
          simp [waitsAbove] at hw
        obtain ⟨htop, -⟩ := List.ne_and_not_mem_of_not_mem_cons hs.closing
        have hfirst := (Outcome.forall_notes_andThen hnotes).1
        rw [hred top operands (Operator.arity_ne_zero hopen (Ne.symm htop)) hs.operands hfirst]

theorem drainWith_eq (hred : red.Agrees) (hclosing : .closing ∉ operators)
    (hwell : ∀ a ∈ operands, a.WellFormed)
    (hnotes : ∀ note ∈ (drain operators operands).notes, note.isCountable = true) :
    drainWith red operators operands = drain operators operands := by
  induction operators generalizing operands with
  | nil => rfl
  | cons op operators ih =>
    obtain ⟨hop, hrest⟩ := List.ne_and_not_mem_of_not_mem_cons hclosing
    by_cases hopen : op = .opening
    · subst hopen
      rfl
    have hstepWith : drainWith red (op :: operators) operands =
        (red op operands).andThen (drainWith red operators) := by
      cases op <;> first | rfl | exact absurd rfl hopen
    rw [drain_cons hopen] at hnotes
    obtain ⟨hfirst, hlater⟩ := Outcome.forall_notes_andThen hnotes
    have hsame := hred op operands (Operator.arity_ne_zero hopen (Ne.symm hop)) hwell hfirst
    rw [drain_cons hopen, hstepWith, hsame]
    exact Outcome.andThen_congr fun hok =>
      ih hrest (keeps_reduce (Ne.symm hop) hwell).state (hlater hok)

/-- Sound stacks end alike with every reduction that agrees. -/
theorem finishWith_eq (hred : red.Agrees) {s : Stacks α} (hs : s.Sound)
    (hnotes : ∀ note ∈ s.finish.notes, note.isCountable = true) : s.finishWith red = s.finish := by
  have hdrain := (Logged.forall_notes_bind hnotes).1
  have hsame := drainWith_eq hred hs.closing hs.operands hdrain
  exact congrArg (fun x => x.toLogged >>= _) hsame

/-! ## §3 A reduction that checks its results -/

/-- The reduction where a sum, a difference or a product is made by the constructor that counts the
entries. -/
def reduceChecked : Reducer α := fun op operands =>
  match op, operands with
  | .binary b, right :: left :: rest =>
    match (b.apply left right).bind fun c => DenseMatrix.ofFlat c.rows c.cols c.values with
    | .ok c => .done (c :: rest) [.reduced op c.toShape]
    | .error f => .failed rest (.calculation f)
  | op, operands => reduce op operands

/-- The check never fails: the results have as many entries as their shapes say. -/
theorem agrees_reduceChecked : (reduceChecked : Reducer α).Agrees := by
  intro op operands hop hwell hnotes
  match op, operands, hwell with
  | .binary b, right :: left :: rest, hwell =>
    cases hb : b.apply left right with
    | error f => simp only [reduceChecked, reduce, hb, Except.bind]
    | ok c =>
      simp only [reduce, hb] at hnotes
      have hcount : c.rows * c.cols < DenseMatrix.wordCount :=
        of_decide_eq_true (hnotes _ (List.mem_singleton_self _))
      have hc : c.WellFormed := DenseMatrix.wellFormed_of_binary (hwell left (by simp))
        (hwell right (by simp)) hb
      simp only [reduceChecked, reduce, hb, Except.bind,
        DenseMatrix.ofFlat_of_wellFormed hc hcount]
  | .binary b, [], _ => rfl
  | .binary b, [a], _ => rfl
  | .unary u, _, _ => rfl
  | .opening, _, _ => rfl
  | .closing, _, _ => rfl

end Stacks

end MatrixCalc
