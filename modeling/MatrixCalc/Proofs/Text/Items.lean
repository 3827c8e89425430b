import MatrixCalc.Evaluation
import MatrixCalc.Proofs.Text.Columns
import MatrixCalc.Proofs.Text.Lexing

/-!
# The items of a text

`Reads cs items` says that a text is cut and read into some items. Evaluating such a text is
evaluating its items, although the one reads and reduces in turns (`result_evaluate`), and a text
that has a value has items (`exists_reads`). Items of texts in a row follow each other.
-/

namespace MatrixCalc

/-! ## §1 Reading and reducing in turns -/

namespace Reading

theorem items_append (ts us : List Placed) (r : Reading) :
    (items (ts ++ us) r).result =
      (items ts r).result.bind fun x =>
        (items us x.2).result.map fun y => (x.1 ++ y.1, y.2) := by
  induction ts generalizing r with
  | nil =>
    simp only [List.nil_append, items, Logged.result_pure, Except.bind]
    cases (items us r).result <;> rfl
  | cons t ts ih =>
    simp only [List.cons_append, items, Logged.result_bind, ih]
    cases (r.step t.token t.column).result with
    | error f => rfl
    | ok a =>
      simp only [Except.bind]
      cases (items ts a.1).result with
      | error f => rfl
      | ok x =>
        simp only [Logged.result_pure]
        cases (items us x.2).result with
        | error f => rfl
        | ok y => simp [Except.map]

end Reading

theorem evaluateTokens_append (ts us : List Placed) (r : Reading) (s : Stacks Float) :
    (evaluateTokens (ts ++ us) r s).result =
      (evaluateTokens ts r s).result.bind fun x => (evaluateTokens us x.1 x.2).result := by
  induction ts generalizing r s with
  | nil => rfl
  | cons t ts ih =>
    simp only [List.cons_append, evaluateTokens_cons, Logged.result_bind]
    cases (r.step t.token t.column).result with
    | error f => rfl
    | ok x =>
      obtain ⟨next, item?⟩ := x
      cases item? with
      | none => exact ih next s
      | some item =>
        simp only [Except.bind, Logged.result_bind]
        cases (s.feed item).toLogged.result with
        | error f => rfl
        | ok fed => exact ih next fed

theorem result_evaluateTokens {ts : List Placed} {r last : Reading} {xs : List (Item Float)}
    (h : (Reading.items ts r).result = .ok (xs, last)) (s : Stacks Float) :
    (evaluateTokens ts r s).result = (s.feedAll xs).toLogged.result.map fun t => (last, t) := by
  induction ts generalizing r xs s with
  | nil =>
    cases h
    rfl
  | cons t ts ih =>
    simp only [Reading.items, Logged.result_bind] at h
    obtain ⟨⟨next, item?⟩, hstep, h⟩ := bind_eq_ok_iff.1 h
    obtain ⟨⟨later, last'⟩, hitems, h⟩ := bind_eq_ok_iff.1 h
    cases h
    rw [evaluateTokens_cons, Logged.result_bind, hstep]
    cases item? with
    | none => exact ih hitems s
    | some item =>
      simp only [Except.bind, Logged.result_bind, Option.toList, List.cons_append, List.nil_append,
        Stacks.feedAll, Outcome.result_andThen]
      cases (s.feed item).toLogged.result with
      | error f => rfl
      | ok p => exact ih hitems p

theorem exists_items_of_evaluateTokens {ts : List Placed} {r last : Reading} {s t : Stacks Float}
    (h : (evaluateTokens ts r s).result = .ok (last, t)) :
    ∃ xs, (Reading.items ts r).result = .ok (xs, last) := by
  induction ts generalizing r s with
  | nil =>
    cases h
    exact ⟨[], rfl⟩
  | cons u ts ih =>
    rw [evaluateTokens_cons, Logged.result_bind] at h
    obtain ⟨⟨next, item?⟩, hstep, h⟩ := bind_eq_ok_iff.1 h
    have hrest : ∃ xs, (Reading.items ts next).result = .ok (xs, last) := by
      cases item? with
      | none => exact ih h
      | some item =>
        simp only [Logged.result_bind] at h
        obtain ⟨p, -, h⟩ := bind_eq_ok_iff.1 h
        exact ih h
    obtain ⟨xs, hxs⟩ := hrest
    refine ⟨item?.toList ++ xs, ?_⟩
    rw [Reading.items, Logged.result_bind, hstep]
    simp only [Except.bind, Logged.result_bind, hxs, Logged.result_pure]

/-- A text that cannot be cut into tokens is refused for that, whatever else is wrong with it. -/
theorem result_evaluate_of_lex_eq_error {source : String} {f : TextFault}
    (h : Token.lex source = .error f) : (evaluate source).result = .error (.text f) := by
  simp only [evaluate_eq, h, Logged.result_after, Logged.result_bind]
  rfl

/-- The tokens of a text are read and reduced, and then nothing may be left open. -/
theorem result_evaluate_of_lex_eq_ok {source : String} {placed : List Placed}
    (h : Token.lex source = .ok placed) :
    (evaluate source).result =
      (evaluateTokens placed .outside .empty).result.bind fun x =>
        ((x.1.finish source.utf8ByteSize).mapError Fault.text).bind fun _ => x.2.finish.result := by
  simp only [evaluate_eq, h, Logged.result_after, Logged.result_bind]
  rfl

/-! ## §2 Texts and their items -/

/-- A text that is cut into tokens and read into items, wherever it begins. -/
def Reads (cs : List Char) (items : List (Item Float)) : Prop :=
  ∃ ts, Token.Lexes cs ts ∧ ∀ placed : List Placed, placed.map Placed.token = ts →
    (Reading.items placed .outside).result = .ok (items, .outside)

theorem reads_of_lex {column : Nat} {cs : List Char} {placed : List Placed}
    {items : List (Item Float)} (hlex : Token.lexFrom column cs = .ok placed)
    (hread : (Reading.items placed .outside).result = .ok (items, .outside)) : Reads cs items := by
  refine ⟨_, Token.lexes_of_lexFrom hlex, fun moved hmoved => ?_⟩
  have h := Reading.alike_items hmoved.symm .outside
  rw [hread] at h
  obtain ⟨⟨xs, last⟩, hresult, rfl, hlast⟩ := h.ok_left
  cases hlast
  exact hresult

theorem Reads.append {xs ys : List Char} {is js : List (Item Float)} (hx : Reads xs is)
    (hy : Reads ys js) (hb : Token.Boundary xs ys) : Reads (xs ++ ys) (is ++ js) := by
  obtain ⟨ts, hts, hreadx⟩ := hx
  obtain ⟨us, hus, hready⟩ := hy
  refine ⟨ts ++ us, hts.append hus hb, fun placed hplaced => ?_⟩
  obtain ⟨p, q, rfl, hp, hq⟩ := List.map_eq_append_iff.1 hplaced
  rw [Reading.items_append, hreadx p hp]
  show (Reading.items q .outside).result.map _ = _
  rw [hready q hq]
  rfl

/-- The value of a text is the value of its items, and so is its fault. -/
theorem result_evaluate {source : String} {items : List (Item Float)}
    (h : Reads source.toList items) : (evaluate source).result = (evaluateItems items).result := by
  obtain ⟨ts, hts, hread⟩ := h
  obtain ⟨placed, hplaced, rfl⟩ := hts.exists_lexFrom 0
  have hlex : Token.lex source = .ok placed := hplaced
  rw [result_evaluate_of_lex_eq_ok hlex, result_evaluateTokens (hread placed rfl), evaluateItems,
    Logged.result_bind]
  cases (Stacks.empty.feedAll items).toLogged.result <;> rfl

/-- A text with a value has items, and they have that value. -/
theorem exists_reads {source : String} {a : DenseMatrix Float}
    (h : (evaluate source).result = .ok a) :
    ∃ items, Reads source.toList items ∧ (evaluateItems items).result = .ok a := by
  have hvalue := h
  cases hlex : Token.lex source with
  | error f =>
    rw [result_evaluate_of_lex_eq_error hlex] at h
    cases h
  | ok placed =>
    rw [result_evaluate_of_lex_eq_ok hlex] at h
    obtain ⟨⟨last, s⟩, hrun, h⟩ := bind_eq_ok_iff.1 h
    obtain ⟨_, hlast, -⟩ := bind_eq_ok_iff.1 h
    obtain ⟨items, hitems⟩ := exists_items_of_evaluateTokens hrun
    -- a literal that is still open at the end would have been a fault
    have hreads : Reads source.toList items := by
      cases last with
      | outside => exact reads_of_lex hlex hitems
      | inside d => cases hlast
    exact ⟨items, hreads, (result_evaluate hreads).symm.trans hvalue⟩

end MatrixCalc
