import Mathlib.Data.List.Forall2
import MatrixCalc.Proofs.Outline.Soundness

/-!
# Shapes alone decide

Two runs of the stacks on matrices of the same shapes go the same way, whatever the entries are and
also if their arithmetic differs: each call succeeds in both runs or fails in both with the same
fault, and it leaves matrices of the same shapes, so the next calls agree again
(`control_depends_on_shapes`).

`Agree` relates results and `Outcome.Agree` moves; every function on the way has one lemma, named
after it. Notes are left out, as those of an elimination tell where its pivots were.

§1 results that agree · §2 operations · §3 the moves of the stacks · §4 two runs
-/

namespace MatrixCalc

universe u v

/-! ## §1 Results that agree -/

/-- Results that agree: related values, or the same fault. -/
inductive Agree {ε : Type*} {σ : Type u} {τ : Type v} (R : σ → τ → Prop) :
    Except ε σ → Except ε τ → Prop where
  | ok {a : σ} {b : τ} (h : R a b) : Agree R (.ok a) (.ok b)
  | error (e : ε) : Agree R (.error e) (.error e)

section Agree

variable {ε : Type*} {σ σ' : Type u} {τ τ' : Type v} {R : σ → τ → Prop} {S : σ' → τ' → Prop}

theorem Agree.of_eq {e e' : ε} (h : e = e') : Agree R (.error e) (.error e') := h ▸ .error e

theorem Agree.ok_or_error {x : Except ε σ} {y : Except ε τ} (h : Agree R x y) :
    (∃ a b, x = .ok a ∧ y = .ok b ∧ R a b) ∨ ∃ e, x = .error e ∧ y = .error e := by
  cases h with
  | ok hab => exact .inl ⟨_, _, rfl, rfl, hab⟩
  | error e => exact .inr ⟨e, rfl, rfl⟩

theorem Agree.bind {x : Except ε σ} {y : Except ε τ} {f : σ → Except ε σ'} {g : τ → Except ε τ'}
    (h : Agree R x y) (hf : ∀ a b, R a b → Agree S (f a) (g b)) :
    Agree S (x.bind f) (y.bind g) := by
  cases h with
  | ok hab => exact hf _ _ hab
  | error e => exact .error e

end Agree

namespace Outcome

/-- Moves that agree: both succeed or both fail with the same fault, and the states they leave are
related in any case. -/
structure Agree {σ : Type u} {τ : Type v} (R : σ → τ → Prop) (x : Outcome σ) (y : Outcome τ) :
    Prop where
  fault : x.fault? = y.fault?
  state : R x.state y.state

variable {σ σ' : Type u} {τ τ' : Type v} {R : σ → τ → Prop} {S : σ' → τ' → Prop}
  {x : Outcome σ} {y : Outcome τ}

theorem agree_done {s : σ} {t : τ} (h : R s t) (notes notes' : List Note) :
    Agree R (done s notes) (done t notes') :=
  ⟨rfl, h⟩

theorem agree_failed {s : σ} {t : τ} (h : R s t) {f g : Fault} (hfg : f = g) :
    Agree R (failed s f) (failed t g) :=
  ⟨congrArg some hfg, h⟩

theorem Agree.after (h : Agree R x y) (notes notes' : List Note) :
    Agree R (x.after notes) (y.after notes') :=
  ⟨h.fault, h.state⟩

theorem Agree.map {f : σ → σ'} {g : τ → τ'} (h : Agree R x y) (hf : ∀ s t, R s t → S (f s) (g t)) :
    Agree S (x.map f) (y.map g) :=
  ⟨h.fault, hf _ _ h.state⟩

theorem Agree.andThen {f : σ → Outcome σ} {g : τ → Outcome τ} (h : Agree R x y)
    (hf : ∀ s t, R s t → Agree R (f s) (g t)) : Agree R (x.andThen f) (y.andThen g) := by
  unfold Outcome.andThen
  rw [← h.fault]
  cases x.fault? with
  | none => exact (hf _ _ h.state).after _ _
  | some e => exact h

theorem Agree.result (h : Agree R x y) :
    MatrixCalc.Agree R x.toLogged.result y.toLogged.result := by
  unfold toLogged
  rw [← h.fault]
  cases x.fault? with
  | none => exact .ok h.state
  | some e => exact .error e

end Outcome

/-! ## §2 Operations -/

variable {α : Type u} {β : Type v}

namespace DenseMatrix

def SameShape (a : DenseMatrix α) (b : DenseMatrix β) : Prop := a.toShape = b.toShape

variable {a c : DenseMatrix α} {b d : DenseMatrix β}

theorem agree_zipEntries (op : Binary) (f : α → α → α) (g : β → β → β) (hab : a.SameShape b)
    (hcd : c.SameShape d) : Agree SameShape (zipEntries op f a c) (zipEntries op g b d) := by
  unfold zipEntries misfit
  have hfit : (a.toShape = c.toShape) = (b.toShape = d.toShape) := congrArg₂ Eq hab hcd
  by_cases h : a.toShape = c.toShape
  · rw [if_pos h, if_pos (hfit ▸ h)]
    exact .ok hab
  · rw [if_neg h, if_neg (hfit ▸ h)]
    exact .of_eq (congrArg₂ (CalcFault.unfitOperands _) hab hcd)

variable [Scalar α] [Scalar β]

theorem agree_mul (hab : a.SameShape b) (hcd : c.SameShape d) :
    Agree SameShape (a.mul c) (b.mul d) := by
  have hrows : a.rows = b.rows := congrArg Shape.rows hab
  have hcols : c.cols = d.cols := congrArg Shape.cols hcd
  have hfit : (a.cols = c.rows) = (b.cols = d.rows) :=
    congrArg₂ (fun x y => Shape.cols x = Shape.rows y) hab hcd
  unfold mul
  by_cases h : a.cols = c.rows
  · rw [if_pos h, if_pos (hfit ▸ h)]
    exact .ok (congrArg₂ Shape.mk hrows hcols)
  · rw [if_neg h, if_neg (hfit ▸ h)]
    exact .of_eq (congrArg₂ (CalcFault.unfitOperands _) hab hcd)

/-- The inverse is refused for the shape alone: what the elimination finds makes no difference. -/
theorem agree_inverse (h : a.SameShape b) : Agree SameShape a.inverse b.inverse := by
  have hrows : a.rows = b.rows := congrArg Shape.rows h
  have hsquare : a.isSquare = b.isSquare := congrArg Shape.isSquare h
  unfold inverse
  rw [← hsquare]
  cases a.isSquare with
  | true => exact .ok (congrArg₂ Shape.mk hrows hrows)
  | false => exact .of_eq (congrArg CalcFault.notSquare h)

end DenseMatrix

variable [Scalar α] [Scalar β]

theorem Unary.agree_apply (op : Unary) {a : DenseMatrix α} {b : DenseMatrix β} (h : a.SameShape b) :
    Agree DenseMatrix.SameShape (op.apply a).result (op.apply b).result := by
  cases op with
  | transpose => exact .ok (congrArg Shape.transpose h)
  | ref => exact .ok h
  | rref => exact .ok h
  | inverse =>
    unfold Unary.apply
    obtain ⟨c, d, ha, hb, hcd⟩ | ⟨f, ha, hb⟩ := (DenseMatrix.agree_inverse h).ok_or_error
    · rw [ha, hb]
      exact .ok hcd
    · rw [ha, hb]
      exact .error _

theorem Binary.agree_apply (op : Binary) {a c : DenseMatrix α} {b d : DenseMatrix β}
    (hab : a.SameShape b) (hcd : c.SameShape d) :
    Agree DenseMatrix.SameShape (op.apply a c) (op.apply b d) := by
  cases op with
  | times => exact DenseMatrix.agree_mul hab hcd
  | minus => exact DenseMatrix.agree_zipEntries .minus _ _ hab hcd
  | plus => exact DenseMatrix.agree_zipEntries .plus _ _ hab hcd

/-! ## §3 The moves of the stacks -/

abbrev SameShapes : List (DenseMatrix α) → List (DenseMatrix β) → Prop :=
  List.Forall₂ DenseMatrix.SameShape

inductive Item.SameShape : Item α → Item β → Prop where
  | operator (op : Operator) : SameShape (.operator op) (.operator op)
  | operand {a : DenseMatrix α} {b : DenseMatrix β} (h : a.SameShape b) :
      SameShape (.operand a) (.operand b)

namespace Stacks

/-- The same operators wait, and as many operands of the same shapes. -/
structure SameShape (s : Stacks α) (t : Stacks β) : Prop where
  operators : s.operators = t.operators
  operands : SameShapes s.operands t.operands

variable {as : List (DenseMatrix α)} {bs : List (DenseMatrix β)} {s : Stacks α} {t : Stacks β}

/-- A reduction takes the same operands away, also if it fails. -/
theorem agree_reduce (op : Operator) (h : SameShapes as bs) :
    Outcome.Agree SameShapes (reduce op as) (reduce op bs) := by
  cases op with
  | unary op =>
    cases h with
    | nil => exact Outcome.agree_failed .nil rfl
    | @cons a b as bs hab hrest =>
      obtain ⟨c, d, ha, hb, hcd⟩ | ⟨f, ha, hb⟩ := (op.agree_apply hab).ok_or_error
      · simp only [reduce, ha, hb]
        exact Outcome.agree_done (List.Forall₂.cons hcd hrest) _ _
      · simp only [reduce, ha, hb]
        exact ⟨rfl, hrest⟩
  | binary op =>
    cases h with
    | nil => exact Outcome.agree_failed .nil rfl
    | @cons right right' as bs hright hrest =>
      cases hrest with
      | nil => exact Outcome.agree_failed (.cons hright .nil) rfl
      | @cons left left' as bs hleft hrest =>
        obtain ⟨c, d, ha, hb, hcd⟩ | ⟨f, ha, hb⟩ := (op.agree_apply hleft hright).ok_or_error
        · simp only [reduce, ha, hb]
          exact Outcome.agree_done (List.Forall₂.cons hcd hrest) _ _
        · simp only [reduce, ha, hb]
          exact Outcome.agree_failed hrest rfl
  | opening =>
    cases h with
    | nil => exact Outcome.agree_failed .nil rfl
    | cons hab hrest => exact Outcome.agree_done (.cons hab hrest) _ _
  | closing => exact Outcome.agree_failed h rfl

theorem agree_closeGroup (operators : List Operator) (h : SameShapes as bs) :
    Outcome.Agree SameShape (closeGroup operators as) (closeGroup operators bs) := by
  induction operators generalizing as bs with
  | nil => exact Outcome.agree_failed ⟨rfl, h⟩ rfl
  | cons op operators ih =>
    by_cases hop : op = .opening
    · subst hop
      exact Outcome.agree_done ⟨rfl, h⟩ _ _
    · rw [closeGroup_cons hop, closeGroup_cons hop]
      exact ((agree_reduce op h).map fun as bs has => ⟨rfl, has⟩).andThen
        fun s t hst => ih hst.operands

theorem agree_pushOperator (op : Operator) (h : s.SameShape t) :
    Outcome.Agree SameShape (s.pushOperator op) (t.pushOperator op) := by
  obtain ⟨operators, as⟩ := s
  obtain ⟨operators', bs⟩ := t
  obtain ⟨hoperators, h⟩ := h
  obtain rfl : operators = operators' := hoperators
  unfold pushOperator
  refine Outcome.Agree.after ?_ _ _
  by_cases hop : op = .closing
  · rw [if_pos hop, if_pos hop]
    exact agree_closeGroup operators h
  rw [if_neg hop, if_neg hop]
  cases operators with
  | nil => exact Outcome.agree_done ⟨rfl, h⟩ _ _
  | cons top operators =>
    dsimp only
    by_cases hw : waitsAbove op top = true
    · rw [if_pos hw, if_pos hw]
      exact Outcome.agree_done ⟨rfl, h⟩ _ _
    · rw [if_neg hw, if_neg hw]
      exact ((agree_reduce top h).map fun as bs has => ⟨rfl, has⟩).andThen
        fun s t hst => Outcome.agree_done ⟨congrArg (op :: ·) hst.operators, hst.operands⟩ _ _

/-- Items of the same shape have the same outcome on stacks of the same shapes. -/
theorem agree_feed {x : Item α} {y : Item β} (hxy : x.SameShape y) (h : s.SameShape t) :
    Outcome.Agree SameShape (s.feed x) (t.feed y) := by
  cases hxy with
  | operator op => exact agree_pushOperator op h
  | operand hab => exact Outcome.agree_done ⟨h.operators, .cons hab h.operands⟩ _ _

theorem agree_drain (operators : List Operator) (h : SameShapes as bs) :
    Outcome.Agree SameShapes (drain operators as) (drain operators bs) := by
  induction operators generalizing as bs with
  | nil => exact Outcome.agree_done h _ _
  | cons op operators ih =>
    by_cases hop : op = .opening
    · subst hop
      exact Outcome.agree_failed h rfl
    · rw [drain_cons hop, drain_cons hop]
      exact (agree_reduce op h).andThen fun as bs has => ih has

theorem agree_finish (h : s.SameShape t) :
    Agree DenseMatrix.SameShape s.finish.result t.finish.result := by
  rw [result_finish, result_finish, ← h.operators]
  refine (agree_drain s.operators h.operands).result.bind fun as bs has => ?_
  cases has with
  | nil => exact .error _
  | cons hab hrest =>
    cases hrest with
    | nil => exact .ok hab
    | cons hcd hrest => exact .of_eq (by simp [hrest.length_eq])

/-! ## §4 Two runs -/

/-- Calls with items of the same shapes lead to stacks of the same shapes, whichever calls fail. -/
theorem sameShape_reached {xs : List (Item α)} {ys : List (Item β)}
    (h : List.Forall₂ Item.SameShape xs ys) : (reached xs).SameShape (reached ys) := by
  have hrun : ∀ (s : Stacks α) (t : Stacks β), s.SameShape t →
      (xs.foldl (fun s item => (s.feed item).state) s).SameShape
        (ys.foldl (fun t item => (t.feed item).state) t) := by
    induction h with
    | nil => exact fun s t hst => hst
    | cons hxy _ ih => exact fun s t hst => ih _ _ (agree_feed hxy hst).state
  exact hrun empty empty ⟨rfl, .nil⟩

end Stacks

/-- Two sequences of calls whose matrices have the same shapes, call by call. Each call succeeds in
both runs or fails in both with the same fault, and it leaves the same waiting operators and as many
operands of the same shapes; calls that fail are followed by others. At the end both runs have the
same fault or values of the same shape. -/
theorem control_depends_on_shapes {xs : List (Item α)} {ys : List (Item β)}
    (h : List.Forall₂ Item.SameShape xs ys) :
    (∀ n x y, xs[n]? = some x → ys[n]? = some y →
      Outcome.Agree Stacks.SameShape ((Stacks.reached (xs.take n)).feed x)
        ((Stacks.reached (ys.take n)).feed y)) ∧
    Agree DenseMatrix.SameShape (Stacks.reached xs).finish.result
      (Stacks.reached ys).finish.result := by
  refine ⟨fun n x y hx hy => ?_, Stacks.agree_finish (Stacks.sameShape_reached h)⟩
  obtain ⟨hn, rfl⟩ := List.getElem?_eq_some_iff.1 hx
  obtain ⟨hn', rfl⟩ := List.getElem?_eq_some_iff.1 hy
  exact Stacks.agree_feed (h.get hn hn') (Stacks.sameShape_reached (List.forall₂_take n h))

/-- A difference that does not fit fails at the plus after it, and an inverse follows: that of a
regular matrix in one run and that of a matrix with NaN and an infinity in the other. -/
theorem control_depends_on_shapes_inverse :
    let calls (a b : DenseMatrix Float) : List (Item Float) :=
      [.operand a, .operator (.binary .minus), .operand b, .operator (.binary .plus), .operand a,
        .operator (.unary .inverse)]
    let xs := calls ⟨⟨2, 2⟩, #[1, 2, 3, 4]⟩ ⟨⟨1, 2⟩, #[5, 6]⟩
    let ys := calls ⟨⟨2, 2⟩, #[0.0 / 0.0, 0, 0, 1.0 / 0.0]⟩ ⟨⟨1, 2⟩, #[0, -1.0 / 0.0]⟩
    let fault := Fault.calculation (.unfitOperands (.binary .minus) ⟨2, 2⟩ ⟨1, 2⟩)
    ((Stacks.reached (xs.take 3)).feed (.operator (.binary .plus))).fault? = some fault ∧
    ((Stacks.reached (ys.take 3)).feed (.operator (.binary .plus))).fault? = some fault ∧
    Agree DenseMatrix.SameShape (Stacks.reached xs).finish.result
      (Stacks.reached ys).finish.result := by
  intro calls xs ys fault
  have hshapes : List.Forall₂ Item.SameShape xs ys :=
    .cons (.operand rfl) (.cons (.operator _) (.cons (.operand rfl) (.cons (.operator _)
      (.cons (.operand rfl) (.cons (.operator _) .nil)))))
  obtain ⟨hcalls, hfinish⟩ := control_depends_on_shapes hshapes
  have hfault : ((Stacks.reached (xs.take 3)).feed (.operator (.binary .plus))).fault? =
    some fault := rfl
  exact ⟨hfault, (hcalls 3 _ _ rfl rfl).fault.symm.trans hfault, hfinish⟩

end MatrixCalc
