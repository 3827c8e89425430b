import MatrixCalc.Proofs.Text.Expressions

/-!
# Faults of the stacks

What can go wrong when something is put on the stacks is a fault of a reduction or of the search for
a bracket (`Fault.IsOfMove`), and nothing else (`Stacks.isOfMove_of_feed`). The end of an expression
has two faults more, which it runs into only after all that waits is reduced
(`Stacks.finish_cases`).

§1 faults of moves · §2 the end of an expression
-/

namespace MatrixCalc

universe u

/-! ## §1 Faults of moves -/

/-- The faults that a reduction or the search for a bracket runs into. -/
inductive Fault.IsOfMove : Fault → Prop where
  | misfit {f : Fault} (h : f.IsMisfit) : IsOfMove f
  | missing (op : Operator) : IsOfMove (.calculation (.missingOperand op))
  | unsupported (op : Operator) : IsOfMove (.calculation (.unsupportedOperator op))
  | unbalanced : IsOfMove (.calculation .unbalancedBrackets)

theorem Fault.not_isOfMove_leftover (count : Nat) :
    ¬ IsOfMove (.calculation (.leftoverOperands count)) := by
  rintro (⟨⟨⟩⟩)

theorem Fault.not_isOfMove_empty : ¬ IsOfMove (.calculation .emptyExpression) := by
  rintro (⟨⟨⟩⟩)

theorem Fault.not_isOfMove_text (g : TextFault) : ¬ IsOfMove (.text g) := by
  rintro (⟨⟨⟩⟩)

namespace Stacks

variable {α : Type u} [Scalar α] {op : Operator} {operators : List Operator}
  {as : List (DenseMatrix α)} {f : Fault}

theorem isOfMove_of_reduce (h : (reduce op as).toLogged.result = .error f) : f.IsOfMove := by
  match op, as, h with
  | .unary u, a :: rest, h =>
    rw [result_reduce_unary] at h
    cases hu : (u.apply a).result with
    | ok b =>
      rw [hu] at h
      cases h
    | error g =>
      rw [hu] at h
      cases h
      exact .misfit (Unary.isMisfit_of_apply hu)
  | .binary b, right :: left :: rest, h =>
    rw [result_reduce_binary] at h
    cases hb : b.apply left right with
    | ok c =>
      rw [hb] at h
      cases h
    | error g =>
      rw [hb] at h
      cases h
      exact .misfit (Binary.isMisfit_of_apply hb)
  | .opening, a :: rest, h => cases h
  | .unary u, [], h => cases h; exact .missing _
  | .binary b, [], h => cases h; exact .missing _
  | .binary b, [a], h => cases h; exact .missing _
  | .opening, [], h => cases h; exact .missing _
  | .closing, _, h => cases h; exact .unsupported _

theorem isOfMove_of_closeGroup (h : (closeGroup operators as).toLogged.result = .error f) :
    f.IsOfMove := by
  induction operators generalizing as with
  | nil =>
    cases h
    exact .unbalanced
  | cons op operators ih =>
    by_cases hop : op = .opening
    · subst hop
      cases h
    · rw [result_closeGroup_cons hop] at h
      rcases bind_eq_error_iff.1 h with hr | ⟨bs, -, hc⟩
      · exact isOfMove_of_reduce hr
      · exact ih hc

theorem isOfMove_of_pushOperator {s : Stacks α}
    (h : (s.pushOperator op).toLogged.result = .error f) : f.IsOfMove := by
  obtain ⟨operators, operands⟩ := s
  by_cases hop : op = .closing
  · subst hop
    exact isOfMove_of_closeGroup h
  by_cases hwaits : ∀ top ∈ operators.head?, waitsAbove op top = true
  · rw [result_pushOperator_waits hop hwaits] at h
    cases h
  · cases operators with
    | nil => exact absurd (fun _ htop => nomatch htop) hwaits
    | cons top operators =>
      have hw : waitsAbove op top = false := by simpa using hwaits
      rw [result_pushOperator_reduces hop hw] at h
      cases hr : (reduce top operands).toLogged.result with
      | ok bs =>
        rw [hr] at h
        cases h
      | error g =>
        rw [hr] at h
        cases h
        exact isOfMove_of_reduce hr

/-- Whatever is put on the stacks, a fault is one of a move. -/
theorem isOfMove_of_feed {item : Item α} {s : Stacks α}
    (h : (s.feed item).toLogged.result = .error f) : f.IsOfMove := by
  cases item with
  | operator op => exact isOfMove_of_pushOperator h
  | operand a => cases h

theorem isOfMove_of_drain (h : (drain operators as).toLogged.result = .error f) : f.IsOfMove := by
  induction operators generalizing as with
  | nil => cases h
  | cons op operators ih =>
    by_cases hop : op = .opening
    · subst hop
      cases h
      exact .unbalanced
    · rw [result_drain_cons hop] at h
      rcases bind_eq_error_iff.1 h with hr | ⟨bs, -, hd⟩
      · exact isOfMove_of_reduce hr
      · exact ih hd

/-! ## §2 The end of an expression -/

theorem finish_cases (s : Stacks α) :
    (∃ f, s.finish.result = .error f ∧ f.IsOfMove) ∨
      ∃ bs, (drain s.operators s.operands).toLogged.result = .ok bs ∧
        ((bs = [] ∧ s.finish.result = .error (.calculation .emptyExpression)) ∨
          (∃ a, bs = [a] ∧ s.finish.result = .ok a) ∨
          2 ≤ bs.length ∧
            s.finish.result = .error (.calculation (.leftoverOperands bs.length))) := by
  rw [result_finish]
  cases hd : (drain s.operators s.operands).toLogged.result with
  | error f => exact Or.inl ⟨f, rfl, isOfMove_of_drain hd⟩
  | ok bs =>
    refine Or.inr ⟨bs, rfl, ?_⟩
    match bs with
    | [] => exact Or.inl ⟨rfl, rfl⟩
    | [a] => exact Or.inr (Or.inl ⟨a, rfl, rfl⟩)
    | a :: b :: rest => exact Or.inr (Or.inr ⟨Nat.le_add_left 2 _, rfl⟩)

/-- A result that is no fault of a move is that of an expression all of which was reduced. -/
theorem drain_of_finish {s : Stacks α} {r : Except Fault (DenseMatrix α)} (h : s.finish.result = r)
    (hr : ∀ f, r = .error f → ¬ f.IsOfMove) :
    ∃ bs, (drain s.operators s.operands).toLogged.result = .ok bs ∧
      ((bs = [] ∧ r = .error (.calculation .emptyExpression)) ∨ (∃ a, bs = [a] ∧ r = .ok a) ∨
        2 ≤ bs.length ∧ r = .error (.calculation (.leftoverOperands bs.length))) := by
  subst h
  rcases finish_cases s with ⟨f, hf, hmove⟩ | hlast
  · exact absurd hmove (hr f hf)
  · exact hlast

theorem finish_ne_text (s : Stacks α) (g : TextFault) : s.finish.result ≠ .error (.text g) := by
  intro h
  obtain ⟨bs, -, ⟨-, hr⟩ | ⟨b, -, hr⟩ | ⟨-, hr⟩⟩ := drain_of_finish h fun f hf =>
    Except.error.inj hf ▸ Fault.not_isOfMove_text g
  · cases hr
  · cases hr
  · cases hr

end Stacks

end MatrixCalc
