import MatrixCalc.Reading
import MatrixCalc.Proofs.Outline.Value

/-!
# Reading and columns

Reading looks at the columns of tokens only to put them into faults. Two sequences of the same
tokens at other columns are read alike: they give the same items, or the same fault up to its
column.
-/

namespace MatrixCalc

universe u v

/-! ## §1 Results up to columns -/

/-- The same fault without its column. -/
def Fault.unplaced : Fault → Fault
  | .text f => .text { f with column := 0 }
  | .calculation f => .calculation f

/-- Results that are alike: both values are related, or both faults agree but for their columns. -/
inductive Alike {σ : Type u} (R : σ → σ → Prop) : Except Fault σ → Except Fault σ → Prop where
  | ok {a b : σ} (h : R a b) : Alike R (.ok a) (.ok b)
  | error {f g : Fault} (h : f.unplaced = g.unplaced) : Alike R (.error f) (.error g)

theorem Alike.bind {σ : Type u} {τ : Type v} {R : σ → σ → Prop} {S : τ → τ → Prop}
    {x y : Except Fault σ} {f g : σ → Except Fault τ} (h : Alike R x y)
    (hf : ∀ a b, R a b → Alike S (f a) (g b)) : Alike S (x.bind f) (y.bind g) := by
  cases h with
  | ok hab => exact hf _ _ hab
  | error hfg => exact .error hfg

theorem Alike.ok_left {σ : Type u} {R : σ → σ → Prop} {y : Except Fault σ} {a : σ}
    (h : Alike R (.ok a) y) : ∃ b, y = .ok b ∧ R a b := by
  cases h with
  | ok hab => exact ⟨_, rfl, hab⟩

theorem alike_refl {σ : Type u} (x : Except Fault σ) : Alike Eq x x := by
  cases x with
  | ok a => exact .ok rfl
  | error f => exact .error rfl

theorem Alike.trans {σ : Type u} {x y z : Except Fault σ} (hxy : Alike Eq x y)
    (hyz : Alike Eq y z) : Alike Eq x z := by
  cases hxy with
  | ok hab =>
    cases hyz with
    | ok hbc => exact .ok (hab.trans hbc)
  | error hfg =>
    cases hyz with
    | error hgh => exact .error (hfg.trans hgh)

/-- Drafts that differ at most in where the number at hand begins. -/
def Draft.SameText (d e : Draft) : Prop := { d with pieceColumn := 0 } = { e with pieceColumn := 0 }

namespace Draft

theorem SameText.refl (d : Draft) : d.SameText d := rfl

theorem sameText_iff {d e : Draft} :
    d.SameText e ↔ ∃ column, e = { d with pieceColumn := column } := by
  obtain ⟨piece, pieceColumn, spaced, values, rows, cols, rowLength?⟩ := d
  obtain ⟨piece', pieceColumn', spaced', values', rows', cols', rowLength?'⟩ := e
  simp [SameText, eq_comm]

theorem alike_flush {d e : Draft} (h : d.SameText e) :
    Alike SameText d.flush.toLogged.result e.flush.toLogged.result := by
  obtain ⟨column, rfl⟩ := sameText_iff.1 h
  unfold flush
  simp only
  split
  · exact .ok rfl
  · split
    · exact .error rfl
    · exact .ok rfl

theorem alike_addText (text : String) (column column' : Nat) {d e : Draft} (h : d.SameText e) :
    Alike SameText (d.addText text column).toLogged.result
      (e.addText text column').toLogged.result := by
  have hjoin : ∀ a b : Draft, a.SameText b →
      Alike SameText (Except.ok (a.join text column)) (.ok (b.join text column')) := by
    intro a b hab
    obtain ⟨k, rfl⟩ := sameText_iff.1 hab
    exact .ok rfl
  have hspaced : e.spaced = d.spaced := by
    obtain ⟨k, rfl⟩ := sameText_iff.1 h
    rfl
  unfold addText
  rw [hspaced, Outcome.result_andThen, Outcome.result_andThen]
  refine Alike.bind ?_ hjoin
  split
  · exact alike_flush h
  · exact .ok h

theorem alike_fixRowLength (column column' : Nat) {d e : Draft} (h : d.SameText e) :
    Alike SameText (d.fixRowLength column).toLogged.result
      (e.fixRowLength column').toLogged.result := by
  obtain ⟨k, rfl⟩ := sameText_iff.1 h
  unfold fixRowLength
  simp only
  split
  · exact .error rfl
  · split
    · exact .ok rfl
    · split
      · exact .ok h
      · exact .error rfl

theorem alike_settle (column column' : Nat) {d e : Draft} (h : d.SameText e) :
    Alike SameText (d.settle column).toLogged.result (e.settle column').toLogged.result := by
  unfold settle
  rw [Outcome.result_andThen, Outcome.result_andThen]
  exact (alike_flush h).bind fun a b hab => alike_fixRowLength column column' hab

theorem alike_endRow (column column' : Nat) {d e : Draft} (h : d.SameText e) :
    Alike SameText (d.endRow column).toLogged.result (e.endRow column').toLogged.result := by
  unfold endRow
  rw [Outcome.result_andThen, Outcome.result_andThen]
  refine (alike_settle column column' h).bind fun a b hab => ?_
  obtain ⟨k, rfl⟩ := sameText_iff.1 hab
  exact .ok rfl

theorem alike_close (column column' : Nat) {d e : Draft} (h : d.SameText e) :
    Alike Eq (d.close column).result (e.close column').result := by
  unfold close
  rw [Logged.result_bind, Logged.result_bind]
  refine (alike_settle column column' h).bind fun a b hab => ?_
  obtain ⟨k, rfl⟩ := sameText_iff.1 hab
  exact .ok rfl

end Draft

/-! ## §2 Steps and runs -/

namespace Reading

/-- Readings that stand at the same place of the same text. -/
inductive SameText : Reading → Reading → Prop where
  | outside : SameText outside outside
  | inside {d e : Draft} (h : d.SameText e) : SameText (inside d) (inside e)

theorem SameText.refl (r : Reading) : r.SameText r := by
  cases r with
  | outside => exact .outside
  | inside d => exact .inside (Draft.SameText.refl d)

/-- Steps that lead to the same place and complete the same item. -/
def SameStep (x y : Reading × Option (Item Float)) : Prop := x.1.SameText y.1 ∧ x.2 = y.2

theorem alike_stepOutside (token : Token) (column column' : Nat) :
    Alike SameStep (stepOutside token column).result (stepOutside token column').result := by
  cases token with
  | word text =>
    simp only [stepOutside, operatorOf]
    cases Unary.ofWord? text with
    | none => exact .error rfl
    | some u => exact .ok ⟨.outside, rfl⟩
  | digits text => exact .error rfl
  | literalStart => exact .ok ⟨.inside rfl, rfl⟩
  | literalEnd => exact .error rfl
  | rowEnd => exact .error rfl
  | minus => exact .ok ⟨.outside, rfl⟩
  | plus => exact .ok ⟨.outside, rfl⟩
  | star => exact .ok ⟨.outside, rfl⟩
  | opening => exact .ok ⟨.outside, rfl⟩
  | closing => exact .ok ⟨.outside, rfl⟩
  | space => exact .ok ⟨.outside, rfl⟩

theorem alike_goOn {x y : Outcome Draft}
    (h : Alike Draft.SameText x.toLogged.result y.toLogged.result) :
    Alike SameStep
      (do let next ← x.toLogged; return (inside next, none) : Logged (Reading × _)).result
      (do let next ← y.toLogged; return (inside next, none) : Logged (Reading × _)).result := by
  rw [Logged.result_bind, Logged.result_bind]
  exact h.bind fun a b hab => .ok ⟨.inside hab, rfl⟩

theorem alike_stepInside (token : Token) (column column' : Nat) {d e : Draft}
    (h : d.SameText e) :
    Alike SameStep (stepInside d token column).result (stepInside e token column').result := by
  cases token with
  | digits text => exact alike_goOn (Draft.alike_addText text column column' h)
  | minus => exact alike_goOn (Draft.alike_addText "-" column column' h)
  | rowEnd => exact alike_goOn (Draft.alike_endRow column column' h)
  | space =>
    obtain ⟨k, rfl⟩ := Draft.sameText_iff.1 h
    exact .ok ⟨.inside rfl, rfl⟩
  | literalEnd =>
    simp only [stepInside, Logged.result_bind]
    refine (Draft.alike_close column column' h).bind fun a b hab => ?_
    subst hab
    cases DenseMatrix.ofFlat a.1.rows a.1.cols a.2 with
    | error f => exact .error rfl
    | ok m => exact .ok ⟨.outside, rfl⟩
  | word text =>
    simp only [stepInside, operatorOf]
    cases Unary.ofWord? text with
    | none => exact .error rfl
    | some u => exact .error rfl
  | literalStart => exact .error rfl
  | plus => exact .error rfl
  | star => exact .error rfl
  | opening => exact .error rfl
  | closing => exact .error rfl

theorem alike_step (token : Token) (column column' : Nat) {r s : Reading} (h : r.SameText s) :
    Alike SameStep (r.step token column).result (s.step token column').result := by
  cases h with
  | outside => exact alike_stepOutside token column column'
  | inside h => exact alike_stepInside token column column' h

theorem alike_items {ts us : List Placed} (htokens : ts.map Placed.token = us.map Placed.token)
    {r s : Reading} (h : r.SameText s) :
    Alike (fun x y => x.1 = y.1 ∧ x.2.SameText y.2) (items ts r).result (items us s).result := by
  induction ts generalizing us r s with
  | nil =>
    obtain rfl : us = [] := by simpa using htokens
    exact .ok ⟨rfl, h⟩
  | cons t ts ih =>
    cases us with
    | nil => simp at htokens
    | cons u us =>
      simp only [List.map_cons, List.cons.injEq] at htokens
      obtain ⟨ht, hts⟩ := htokens
      simp only [items, Logged.result_bind, ht]
      refine (alike_step u.token t.column u.column h).bind fun a b hab => ?_
      refine (ih hts hab.1).bind fun x y hxy => ?_
      exact .ok ⟨by rw [hab.2, hxy.1], hxy.2⟩

end Reading

end MatrixCalc
