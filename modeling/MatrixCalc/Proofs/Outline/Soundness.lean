import Mathlib.Data.List.Induction
import MatrixCalc.Proofs.Text.Expressions

/-!
# Sound stacks

On sound stacks every operand is well formed and no closing bracket waits. All moves keep stacks
sound, also those that fail, and none fails with a fault that only guards against stacks that are
not (`Stacks.keeps_feed`, `Stacks.safe_finish`).

§1 safe results · §2 well-formed matrices · §3 the moves of the stacks
-/

namespace MatrixCalc

universe u v

/-! ## §1 Safe results -/

/-- A fault that stands guard where nothing can be wrong: rows of different lengths, a matrix
without entries, an operator that cannot be applied. -/
def Fault.IsDefensive : Fault → Prop
  | .calculation (.raggedRows _ _ _) | .calculation .emptyMatrix
  | .calculation (.unsupportedOperator _) => True
  | _ => False

theorem Fault.IsMisfit.not_isDefensive {f : Fault} (h : f.IsMisfit) : ¬ f.IsDefensive := by
  cases h <;> exact not_false

/-- A result with a property, or a fault that is not defensive. -/
def Safe {σ : Type u} (P : σ → Prop) : Except Fault σ → Prop
  | .ok s => P s
  | .error f => ¬ f.IsDefensive

section Safe

variable {σ τ : Type u} {P : σ → Prop} {Q : τ → Prop}

theorem Safe.of_ok {x : Except Fault σ} {s : σ} (h : Safe P x) (hx : x = .ok s) : P s := by
  rwa [hx] at h

theorem Safe.of_error {x : Except Fault σ} {f : Fault} (h : Safe P x) (hx : x = .error f) :
    ¬ f.IsDefensive := by
  rwa [hx] at h

theorem Safe.bind {x : Except Fault σ} {f : σ → Except Fault τ} (h : Safe P x)
    (hf : ∀ s, P s → Safe Q (f s)) : Safe Q (x.bind f) := by
  cases x with
  | ok s => exact hf s h
  | error f => exact h

end Safe

namespace Outcome

variable {σ τ : Type u} {P : σ → Prop} {Q : τ → Prop}

/-- A move that leaves a state with a property, whether it fails or not, and whose fault is not
defensive. -/
structure Keeps (P : σ → Prop) (x : Outcome σ) : Prop where
  state : P x.state
  fault : ∀ f, x.fault? = some f → ¬ f.IsDefensive

theorem keeps_done {s : σ} (h : P s) (notes : List Note) : (done s notes).Keeps P :=
  ⟨h, fun _ hf => nomatch hf⟩

theorem keeps_failed {s : σ} {f : Fault} (h : P s) (hf : ¬ f.IsDefensive) :
    (failed s f).Keeps P :=
  ⟨h, fun _ hg => Option.some.inj hg ▸ hf⟩

variable {x : Outcome σ}

theorem Keeps.after (h : x.Keeps P) (notes : List Note) : (x.after notes).Keeps P :=
  ⟨h.state, h.fault⟩

theorem Keeps.map {f : σ → τ} (h : x.Keeps P) (hf : ∀ s, P s → Q (f s)) : (x.map f).Keeps Q :=
  ⟨hf _ h.state, h.fault⟩

theorem Keeps.mono {R : σ → Prop} (h : x.Keeps P) (hPR : ∀ s, P s → R s) : x.Keeps R :=
  ⟨hPR _ h.state, h.fault⟩

/-- A second move may keep another property, if the states that a failed first move leaves have it,
too. -/
theorem Keeps.andThen_of_imp {R : σ → Prop} {f : σ → Outcome σ} (h : x.Keeps P)
    (hPR : ∀ s, P s → R s) (hf : ∀ s, P s → (f s).Keeps R) : (x.andThen f).Keeps R := by
  unfold Outcome.andThen
  split
  · exact h.mono hPR
  · exact (hf _ h.state).after _

theorem Keeps.andThen {f : σ → Outcome σ} (h : x.Keeps P) (hf : ∀ s, P s → (f s).Keeps P) :
    (x.andThen f).Keeps P :=
  h.andThen_of_imp (fun _ hs => hs) hf

theorem Keeps.safe (h : x.Keeps P) : Safe P x.toLogged.result := by
  unfold toLogged
  cases hf : x.fault? with
  | none => exact h.state
  | some f => exact h.fault f hf

end Outcome

/-! ## §2 Well-formed matrices -/

namespace DenseMatrix

variable {α : Type u} {a : DenseMatrix α}

theorem wellFormed_of_zipEntries {op : Binary} {f : α → α → α} {b c : DenseMatrix α}
    (ha : a.WellFormed) (hb : b.WellFormed) (h : zipEntries op f a b = .ok c) : c.WellFormed := by
  unfold zipEntries at h
  split at h
  next hshape =>
    cases h
    have hrows : a.rows = b.rows := congrArg Shape.rows hshape
    have hcols : a.cols = b.cols := congrArg Shape.cols hshape
    refine ⟨ha.rows_pos, ha.cols_pos, ?_⟩
    rw [Array.size_zipWith, ha.size_values, hb.size_values, ← hrows, ← hcols, Nat.min_self]
  next => cases h

variable [Scalar α]

theorem wellFormed_of_binary {op : Binary} {b c : DenseMatrix α} (ha : a.WellFormed)
    (hb : b.WellFormed) (h : op.apply a b = .ok c) : c.WellFormed := by
  cases op with
  | times =>
    change a.mul b = .ok c at h
    unfold mul at h
    split at h
    · cases h
      exact wellFormed_ofGrid _ ha.rows_pos hb.cols_pos
    · cases h
  | minus => exact wellFormed_of_zipEntries ha hb h
  | plus => exact wellFormed_of_zipEntries ha hb h

theorem safe_unary (ha : a.WellFormed) (op : Unary) : Safe WellFormed (op.apply a).result := by
  cases h : (op.apply a).result with
  | error f => exact (Unary.isMisfit_of_apply h).not_isDefensive
  | ok b =>
    cases op with
    | transpose =>
      cases h
      exact wellFormed_ofGrid _ ha.cols_pos ha.rows_pos
    | ref =>
      cases h
      exact wellFormed_ofGrid _ ha.rows_pos ha.cols_pos
    | rref =>
      cases h
      exact wellFormed_ofGrid _ ha.rows_pos ha.cols_pos
    | inverse =>
      unfold Unary.apply inverse at h
      by_cases hsquare : a.isSquare = true
      · simp only [hsquare, if_true] at h
        cases h
        exact wellFormed_ofGrid _ ha.rows_pos ha.rows_pos
      · simp only [hsquare] at h
        cases h

end DenseMatrix

/-! ## §3 The moves of the stacks -/

def Item.IsWellFormed {α : Type u} (item : Item α) : Prop :=
  ∀ a ∈ item.operand?, a.WellFormed

namespace Stacks

variable {α : Type u} {operators : List Operator} {operands : List (DenseMatrix α)}

/-- All operands are well formed, and no closing bracket waits. -/
structure Sound (s : Stacks α) : Prop where
  closing : .closing ∉ s.operators
  operands : ∀ a ∈ s.operands, a.WellFormed

theorem sound_empty : (empty : Stacks α).Sound :=
  ⟨List.not_mem_nil, fun _ ha => nomatch ha⟩

variable [Scalar α]

/-- A reduction leaves well-formed operands, and it has no defensive fault unless it is that of a
closing bracket. -/
theorem keeps_reduce {op : Operator} (hop : op ≠ .closing)
    (h : ∀ a ∈ operands, a.WellFormed) :
    (reduce op operands).Keeps fun as => ∀ a ∈ as, a.WellFormed := by
  match op, operands, h with
  | .unary u, a :: rest, h =>
    obtain ⟨ha, hrest⟩ := List.forall_mem_cons.1 h
    have hsafe := DenseMatrix.safe_unary ha u
    unfold reduce
    cases hu : (u.apply a).result with
    | ok b =>
      simp only [hu]
      exact Outcome.keeps_done (List.forall_mem_cons.2 ⟨hsafe.of_ok hu, hrest⟩) _
    | error f =>
      simp only [hu]
      exact ⟨hrest, fun g hg => Option.some.inj hg ▸ hsafe.of_error hu⟩
  | .binary b, right :: left :: rest, h =>
    obtain ⟨hright, hleft, hrest⟩ : right.WellFormed ∧ left.WellFormed ∧ ∀ a ∈ rest, a.WellFormed :=
      by simpa using h
    unfold reduce
    cases hb : b.apply left right with
    | ok c =>
      simp only [hb]
      exact Outcome.keeps_done (List.forall_mem_cons.2
        ⟨DenseMatrix.wellFormed_of_binary hleft hright hb, hrest⟩) _
    | error f =>
      simp only [hb]
      exact Outcome.keeps_failed hrest (Binary.isMisfit_of_apply hb).not_isDefensive
  | .opening, a :: rest, h => exact Outcome.keeps_done h _
  | .unary u, [], h => exact Outcome.keeps_failed h not_false
  | .binary b, [], h => exact Outcome.keeps_failed h not_false
  | .binary b, [a], h => exact Outcome.keeps_failed h not_false
  | .opening, [], h => exact Outcome.keeps_failed h not_false
  | .closing, _, _ => exact absurd rfl hop

theorem keeps_closeGroup (hclosing : .closing ∉ operators) (h : ∀ a ∈ operands, a.WellFormed) :
    (closeGroup operators operands).Keeps Sound := by
  induction operators generalizing operands with
  | nil => exact Outcome.keeps_failed ⟨List.not_mem_nil, h⟩ not_false
  | cons op operators ih =>
    obtain ⟨hop, hrest⟩ := List.ne_and_not_mem_of_not_mem_cons hclosing
    by_cases hopen : op = .opening
    · subst hopen
      exact Outcome.keeps_done ⟨hrest, h⟩ []
    · rw [closeGroup_cons hopen]
      exact ((keeps_reduce (Ne.symm hop) h).map fun as has => ⟨hrest, has⟩).andThen
        fun s hs => ih hrest hs.operands

theorem keeps_pushOperator (op : Operator) {s : Stacks α} (hs : s.Sound) :
    (s.pushOperator op).Keeps Sound := by
  obtain ⟨operators, operands⟩ := s
  unfold pushOperator
  refine Outcome.Keeps.after ?_ _
  by_cases hop : op = .closing
  · rw [if_pos hop]
    exact keeps_closeGroup hs.closing hs.operands
  rw [if_neg hop]
  cases operators with
  | nil => exact Outcome.keeps_done ⟨by simpa using Ne.symm hop, hs.operands⟩ []
  | cons top operators =>
    obtain ⟨htop, hrest⟩ := List.ne_and_not_mem_of_not_mem_cons hs.closing
    dsimp only
    by_cases hw : waitsAbove op top = true
    · rw [if_pos hw]
      exact Outcome.keeps_done
        ⟨List.not_mem_cons_of_ne_of_not_mem (Ne.symm hop) hs.closing, hs.operands⟩ []
    · rw [if_neg hw]
      refine ((keeps_reduce (Ne.symm htop) hs.operands).map fun as has => ⟨hrest, has⟩).andThen
        fun t ht => ?_
      exact Outcome.keeps_done
        ⟨List.not_mem_cons_of_ne_of_not_mem (Ne.symm hop) ht.closing, ht.operands⟩ []

/-- Whatever arrives, the stacks it leaves are sound, also if it fails. -/
theorem keeps_feed {item : Item α} (hitem : item.IsWellFormed) {s : Stacks α} (hs : s.Sound) :
    (s.feed item).Keeps Sound := by
  cases item with
  | operator op => exact keeps_pushOperator op hs
  | operand a =>
    exact Outcome.keeps_done ⟨hs.closing, List.forall_mem_cons.2 ⟨hitem a rfl, hs.operands⟩⟩ _

theorem keeps_drain (hclosing : .closing ∉ operators) (h : ∀ a ∈ operands, a.WellFormed) :
    (drain operators operands).Keeps fun as => ∀ a ∈ as, a.WellFormed := by
  induction operators generalizing operands with
  | nil => exact Outcome.keeps_done h []
  | cons op operators ih =>
    obtain ⟨hop, hrest⟩ := List.ne_and_not_mem_of_not_mem_cons hclosing
    by_cases hopen : op = .opening
    · subst hopen
      exact Outcome.keeps_failed h not_false
    · rw [drain_cons hopen]
      exact (keeps_reduce (Ne.symm hop) h).andThen fun as has => ih hrest has

theorem safe_finish {s : Stacks α} (hs : s.Sound) :
    Safe DenseMatrix.WellFormed s.finish.result := by
  rw [result_finish]
  refine (keeps_drain hs.closing hs.operands).safe.bind fun as has => ?_
  match as, has with
  | [], _ => exact not_false
  | [a], has => exact has a (List.mem_singleton_self a)
  | _ :: _ :: _, _ => exact not_false

/-! ### Calls that go on after a fault -/

/-- The stacks after some arrivals, each of them on what the one before left, whether it failed or
not. -/
def reached (items : List (Item α)) : Stacks α :=
  items.foldl (fun s item => (s.feed item).state) empty

theorem sound_reached {items : List (Item α)} (h : ∀ item ∈ items, item.IsWellFormed) :
    (reached items).Sound := by
  induction items using List.reverseRecOn with
  | nil => exact sound_empty
  | append_singleton items item ih =>
    obtain ⟨hitems, hitem⟩ := List.forall_mem_append.1 h
    have hstep : reached (items ++ [item]) = ((reached items).feed item).state := by
      rw [reached, List.foldl_append]
      rfl
    rw [hstep]
    exact (keeps_feed (hitem item (List.mem_singleton_self item)) (ih hitems)).state

end Stacks

end MatrixCalc
