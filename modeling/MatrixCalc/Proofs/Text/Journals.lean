import MatrixCalc.Proofs.Text.Acceptance
import MatrixCalc.Proofs.Text.Readings

/-!
# The journal of a text

A text is read and reduced in turns, so notes on literals stand between notes on reductions. Without
the notes on literals the journal is that of the items of the text (`filter_evaluateTokens`), and
what it says of the text itself is in the order of the text (`inputs_evaluateTokens`).

Main statement: if a text has a value, its journal tells how that value came about, and a journal
that drops what is too fine as it comes is the full one without it (`journal_tells_evaluation`).

§1 what tokens write · §2 runs over a text · §3 parts of the journal · §4 what the journal tells
-/

namespace MatrixCalc

/-! ## §1 What tokens write -/

def Note.isReading : Note → Bool
  | literalOpened _ | literalClosed _ | valueRead _ _ _ | rowOpened _ => true
  | _ => false

theorem Outcome.mem_notes_andThen {σ : Type} {x : Outcome σ} {f : σ → Outcome σ} {note : Note}
    (h : note ∈ (x.andThen f).notes) : note ∈ x.notes ∨ note ∈ (f x.state).notes := by
  unfold andThen at h
  cases hx : x.fault? with
  | some e => exact .inl (by simpa [hx] using h)
  | none =>
    rw [hx] at h
    exact List.mem_append.1 h

theorem Logged.mem_notes_bind {σ τ : Type} {x : Logged σ} {f : σ → Logged τ} {note : Note}
    (h : note ∈ (x >>= f).notes) : note ∈ x.notes ∨ ∃ b, note ∈ (f b).notes := by
  change note ∈ (Logged.bind x f).notes at h
  unfold Logged.bind at h
  cases hx : x.result with
  | error e => exact .inl (by simpa [hx] using h)
  | ok b =>
    rw [hx] at h
    rcases List.mem_append.1 h with h | h
    · exact .inl h
    · exact .inr ⟨b, h⟩

namespace Draft

variable {d : Draft} {note : Note}

theorem isReading_of_mem_flush (h : note ∈ d.flush.notes) : note.isReading = true := by
  unfold flush at h
  split at h
  · cases h
  · split at h
    · cases h
    · rw [List.mem_singleton.1 h]
      rfl

theorem isReading_of_mem_addText {text : String} {column : Nat}
    (h : note ∈ (d.addText text column).notes) : note.isReading = true := by
  rcases Outcome.mem_notes_andThen h with h | h
  · split at h
    · exact isReading_of_mem_flush h
    · cases h
  · cases h

theorem isReading_of_mem_settle {column : Nat} (h : note ∈ (d.settle column).notes) :
    note.isReading = true := by
  rcases Outcome.mem_notes_andThen h with h | h
  · exact isReading_of_mem_flush h
  · rw [notes_fixRowLength] at h
    cases h

theorem isReading_of_mem_endRow {column : Nat} (h : note ∈ (d.endRow column).notes) :
    note.isReading = true := by
  rcases Outcome.mem_notes_andThen h with h | h
  · exact isReading_of_mem_settle h
  · rw [List.mem_singleton.1 h]
    rfl

theorem isReading_of_mem_close {column : Nat} (h : note ∈ (d.close column).notes) :
    note.isReading = true := by
  rcases Logged.mem_notes_bind h with h | ⟨e, h⟩
  · exact isReading_of_mem_settle h
  · cases h

end Draft

namespace Reading

variable {t : Token} {column : Nat} {note : Note}

theorem isReading_of_mem_stepOutside (h : note ∈ (stepOutside t column).notes) :
    note.isReading = true := by
  cases t with
  | word text =>
    unfold stepOutside at h
    cases hword : operatorOf text column <;> simp only [hword] at h <;> cases h
  | literalStart =>
    rw [List.mem_singleton.1 h]
    rfl
  | minus => cases h
  | plus => cases h
  | star => cases h
  | opening => cases h
  | closing => cases h
  | space => cases h
  | digits text => cases h
  | literalEnd => cases h
  | rowEnd => cases h

theorem isReading_of_mem_stepInside {d : Draft} (h : note ∈ (stepInside d t column).notes) :
    note.isReading = true := by
  -- a move of the draft that leaves the literal open
  have hgoOn {y : Outcome Draft} (hy : ∀ moved ∈ y.notes, moved.isReading = true)
      (hnote : note ∈ (y.toLogged >>= fun next => (pure (inside next, none) : Logged (Reading ×
        Option (Item Float)))).notes) : note.isReading = true := by
    rcases Logged.mem_notes_bind hnote with hmoved | ⟨next, hnext⟩
    · exact hy note hmoved
    · cases hnext
  cases t with
  | word text =>
    unfold stepInside at h
    cases hword : operatorOf text column <;> simp only [hword] at h <;> cases h
  | digits text => exact hgoOn (fun _ hmoved => Draft.isReading_of_mem_addText hmoved) h
  | minus => exact hgoOn (fun _ hmoved => Draft.isReading_of_mem_addText hmoved) h
  | rowEnd => exact hgoOn (fun _ hmoved => Draft.isReading_of_mem_endRow hmoved) h
  | literalEnd =>
    rcases Logged.mem_notes_bind h with h | ⟨⟨shape, values⟩, h⟩
    · exact Draft.isReading_of_mem_close h
    · dsimp only at h
      cases hmatrix : DenseMatrix.ofFlat shape.rows shape.cols values with
      | error f => simp only [hmatrix] at h; cases h
      | ok a =>
        simp only [hmatrix] at h
        rw [List.mem_singleton.1 h]
        rfl
  | space => cases h
  | plus => cases h
  | star => cases h
  | opening => cases h
  | closing => cases h
  | literalStart => cases h

/-- A token writes nothing but notes on literals. -/
theorem isReading_of_mem_step {r : Reading} (h : note ∈ (r.step t column).notes) :
    note.isReading = true := by
  cases r with
  | inside d => exact isReading_of_mem_stepInside h
  | outside => exact isReading_of_mem_stepOutside h

end Reading

/-! ## §2 Runs over a text -/

theorem Note.inputs_eq_nil {work : List Note} (hwork : ∀ note ∈ work, note.isWork = true) :
    inputs work = [] := by
  refine List.filter_eq_nil_iff.2 fun note hnote => ?_
  have hnote' := hwork note hnote
  cases note <;> first | exact Bool.false_ne_true | cases hnote'

/-- Of the notes on an item that arrives, one is on what comes from the text. -/
theorem Stacks.inputs_feed {item : Item Float} {s t : Stacks Float}
    (h : (s.feed item).toLogged.result = .ok t) :
    Note.inputs (s.feed item).notes = [item.note] := by
  obtain ⟨work, hwork, hnotes⟩ := exists_work_feed h
  have hitem : item.note.isInput = true := by cases item <;> rfl
  rw [hnotes, Note.inputs, List.filter_cons_of_pos hitem]
  exact congrArg _ (Note.inputs_eq_nil hwork)

section Runs

variable {t : Placed} {ts : List Placed} {r next last : Reading} {item : Item Float}
  {xs : List (Item Float)} {s : Stacks Float} {y : Reading × Stacks Float}

/-- A token that completes no item leaves the stacks alone. -/
theorem evaluateTokens_of_none (ts : List Placed) (s : Stacks Float)
    (hstep : (r.step t.token t.column).result = .ok (next, none)) :
    (evaluateTokens (t :: ts) r s).result = (evaluateTokens ts next s).result ∧
      (evaluateTokens (t :: ts) r s).notes =
        (r.step t.token t.column).notes ++ (evaluateTokens ts next s).notes := by
  rw [evaluateTokens_cons, Logged.result_bind, hstep, Logged.notes_bind_of_ok hstep]
  exact ⟨rfl, rfl⟩

/-- A token that completes an item, which the stacks take. -/
theorem evaluateTokens_of_some (hstep : (r.step t.token t.column).result = .ok (next, some item))
    (h : (evaluateTokens (t :: ts) r s).result = .ok y) :
    ∃ fed, (s.feed item).toLogged.result = .ok fed ∧
      (evaluateTokens ts next fed).result = .ok y ∧
      (evaluateTokens (t :: ts) r s).notes = (r.step t.token t.column).notes ++
        ((s.feed item).notes ++ (evaluateTokens ts next fed).notes) := by
  rw [evaluateTokens_cons, Logged.result_bind, hstep] at h
  change ((s.feed item).toLogged >>= fun fed => evaluateTokens ts next fed).result = _ at h
  rw [Logged.result_bind] at h
  obtain ⟨fed, hfed, h⟩ := bind_eq_ok_iff.1 h
  refine ⟨fed, hfed, h, ?_⟩
  rw [evaluateTokens_cons, Logged.notes_bind_of_ok hstep]
  exact congrArg _ (Logged.notes_bind_of_ok hfed _)

/-- The notes of a run over a text that are not on literals are those of the run over its items. -/
theorem filter_evaluateTokens {p : Note → Bool}
    (hp : ∀ note, note.isReading = true → p note = false)
    (hx : (Reading.items ts r).result = .ok (xs, last))
    (h : (evaluateTokens ts r s).result = .ok y) :
    (evaluateTokens ts r s).notes.filter p = (s.feedAll xs).notes.filter p := by
  induction ts generalizing r xs s with
  | nil =>
    cases hx
    rfl
  | cons t ts ih =>
    simp only [Reading.items, Logged.result_bind] at hx
    obtain ⟨⟨next, item?⟩, hstep, hx⟩ := bind_eq_ok_iff.1 hx
    obtain ⟨⟨later, last'⟩, hitems, hx⟩ := bind_eq_ok_iff.1 hx
    cases hx
    have hnone : (r.step t.token t.column).notes.filter p = [] := by
      refine List.filter_eq_nil_iff.2 fun note hnote => ?_
      rw [hp note (Reading.isReading_of_mem_step hnote)]
      exact Bool.false_ne_true
    cases item? with
    | none =>
      obtain ⟨hresult, hnotes⟩ := evaluateTokens_of_none ts s hstep
      rw [hnotes, List.filter_append, hnone]
      exact ih hitems (hresult.symm.trans h)
    | some item =>
      obtain ⟨fed, hfed, hrest, hnotes⟩ := evaluateTokens_of_some hstep h
      obtain ⟨hfault, rfl⟩ := Outcome.result_eq_ok_iff.1 hfed
      show _ = (s.feedAll (item :: later)).notes.filter p
      rw [hnotes, List.filter_append, hnone, List.nil_append, List.filter_append, ih hitems hrest,
        Stacks.feedAll, Outcome.notes_andThen hfault, List.filter_append]

/-- The notes of a run over a text on what comes from the text: for each item those on it, in order,
and then those on the literal that is left open. -/
theorem inputs_evaluateTokens {notes : List Note} (hr : r.Told notes)
    (hx : (Reading.items ts r).result = .ok (xs, last))
    (h : (evaluateTokens ts r s).result = .ok y) :
    ∃ more, last.Told more ∧ (∀ item ∈ xs, item.IsRead) ∧
      notes ++ Note.inputs (evaluateTokens ts r s).notes = xs.flatMap Item.inputNotes ++ more := by
  induction ts generalizing r xs s notes with
  | nil =>
    cases hx
    exact ⟨notes, hr, List.forall_mem_nil _, List.append_nil _⟩
  | cons t ts ih =>
    simp only [Reading.items, Logged.result_bind] at hx
    obtain ⟨⟨next, item?⟩, hstep, hx⟩ := bind_eq_ok_iff.1 hx
    obtain ⟨⟨later, last'⟩, hitems, hx⟩ := bind_eq_ok_iff.1 hx
    cases hx
    have htells := Reading.tells_step hr hstep
    cases item? with
    | none =>
      obtain ⟨hresult, hnotes⟩ := evaluateTokens_of_none ts s hstep
      rw [hnotes, Note.inputs_append, ← List.append_assoc]
      exact ih htells hitems (hresult.symm.trans h)
    | some item =>
      obtain ⟨hnext, hread, hitem⟩ := htells
      obtain rfl : next = .outside := hnext
      obtain ⟨fed, hfed, hrest, hnotes⟩ := evaluateTokens_of_some hstep h
      -- the next literal begins without notes
      have hnew : Reading.outside.Told [] := rfl
      obtain ⟨more, hlast, hlater, hmore⟩ := ih hnew hitems hrest
      refine ⟨more, hlast, List.forall_mem_cons.2 ⟨hread, hlater⟩, ?_⟩
      show _ = (item :: later).flatMap Item.inputNotes ++ more
      rw [List.flatMap_cons, List.append_assoc, ← hmore, ← hitem, hnotes, Note.inputs_append,
        Note.inputs_append, Stacks.inputs_feed hfed, List.nil_append, List.append_assoc,
        List.append_assoc]

end Runs

/-- The journal of a text whose tokens are read to the end: a note on its beginning, the notes of
the run over the tokens and those of the end. -/
theorem notes_evaluate {source : String} {placed : List Placed} {s : Stacks Float}
    (hlex : Token.lex source = .ok placed)
    (hrun : (evaluateTokens placed .outside .empty).result = .ok (.outside, s)) :
    (evaluate source).notes = .evaluating source ::
      ((evaluateTokens placed .outside .empty).notes ++ s.finish.notes) := by
  have htokens : (Logged.ofExcept ((Token.lex source).mapError Fault.text)).result =
      .ok placed := by
    rw [hlex]
    rfl
  have hclosed : (Logged.ofExcept ((Reading.outside.finish source.utf8ByteSize).mapError
      Fault.text)).result = .ok () := rfl
  rw [evaluate_eq, Logged.notes_after, Logged.notes_bind_of_ok htokens,
    Logged.notes_bind_of_ok hrun, Logged.notes_bind_of_ok hclosed]
  rfl

/-- The journal of a text that has a value: what is noted after its beginning, and what it is made
of. -/
theorem exists_journal {source : String} {a : DenseMatrix Float}
    (h : (evaluate source).result = .ok a) :
    ∃ items later, Emits source items ∧ (evaluateItems items).result = .ok a ∧
      (∀ item ∈ items, item.IsRead) ∧
      (evaluate source).notes = .evaluating source :: later ∧
      Note.inputs later = items.flatMap Item.inputNotes ∧
      ∀ p : Note → Bool, (∀ note, note.isReading = true → p note = false) →
        later.filter p = (evaluateItems items).notes.filter p := by
  obtain ⟨items, hreads, hvalue⟩ := exists_reads h
  obtain ⟨placed, hlex, hitems⟩ := emits_of_reads hreads
  rw [result_evaluate_of_lex_eq_ok hlex, result_evaluateTokens hitems] at h
  obtain ⟨⟨last, s⟩, hrun, hend⟩ := bind_eq_ok_iff.1 h
  obtain ⟨t, hfed, heq⟩ := map_eq_ok_iff.1 hrun
  cases heq
  have hrun' : (evaluateTokens placed .outside .empty).result = .ok (.outside, s) := by
    rw [result_evaluateTokens hitems, hfed]
    rfl
  obtain ⟨hdrain, hfinish⟩ := Stacks.notes_finish hend
  have hall : (evaluateItems items).notes =
      (Stacks.empty.feedAll items).notes ++ s.finish.notes := Logged.notes_bind_of_ok hfed _
  have houtside : Reading.outside.Told [] := rfl
  obtain ⟨more, hmore, hwell, hinputs⟩ := inputs_evaluateTokens houtside hitems hrun'
  obtain rfl : more = [] := hmore
  refine ⟨items, _, ⟨placed, hlex, hitems⟩, hvalue, hwell, notes_evaluate hlex hrun', ?_,
    fun p hp => ?_⟩
  · have hnone : Note.inputs s.finish.notes = [] := by
      rw [hfinish]
      exact Note.inputs_eq_nil (Stacks.isWork_of_mem_drain hdrain)
    rw [Note.inputs_append, hnone, List.append_nil]
    simpa using hinputs
  · rw [hall, List.filter_append, List.filter_append, filter_evaluateTokens hp hitems hrun']

/-! ## §3 Parts of the journal -/

/-- It makes no difference whether notes are dropped as they come or in the end. -/
theorem Logged.keeping_bind {σ τ : Type} (keeps : Note → Bool) (x : Logged σ) (f : σ → Logged τ) :
    (x >>= f).keeping keeps = x.keeping keeps >>= fun s => (f s).keeping keeps := by
  obtain ⟨notes, result⟩ := x
  cases result with
  | error e => rfl
  | ok s =>
    show Logged.mk (List.filter _ (notes ++ (f s).notes)) (f s).result = _
    rw [List.filter_append]
    rfl

theorem Logged.keeping_after {σ : Type} (keeps : Note → Bool) (notes : List Note) (x : Logged σ) :
    (x.after notes).keeping keeps = (x.keeping keeps).after (notes.filter keeps) := by
  show Logged.mk (List.filter _ (_ ++ _)) _ = _
  rw [List.filter_append]
  rfl

theorem evaluateTokensKeeping_eq (keeps : Note → Bool) (ts : List Placed) (r : Reading)
    (s : Stacks Float) :
    evaluateTokensKeeping keeps ts r s = (evaluateTokens ts r s).keeping keeps := by
  induction ts generalizing r s with
  | nil => rfl
  | cons t ts ih =>
    rw [evaluateTokensKeeping, evaluateTokens_cons, Logged.keeping_bind]
    refine congrArg _ (funext fun x => ?_)
    obtain ⟨next, item?⟩ := x
    cases item? with
    | none => exact ih next s
    | some item =>
      show _ =
        Logged.keeping keeps ((s.feed item).toLogged >>= fun fed => evaluateTokens ts next fed)
      rw [Logged.keeping_bind]
      exact congrArg (fun f => (s.feed item).toLogged.keeping keeps >>= f)
        (funext fun fed => ih next fed)

/-- A part of the journal is what is kept of the full one, and the result is the same. -/
theorem evaluateKeeping_eq (keeps : Note → Bool) (source : String) :
    evaluateKeeping keeps source = (evaluate source).keeping keeps := by
  rw [evaluateKeeping, evaluate_eq, Logged.keeping_after, Logged.keeping_bind]
  refine congrArg _ (congrArg _ (funext fun tokens => ?_))
  rw [Logged.keeping_bind, evaluateTokensKeeping_eq]
  refine congrArg _ (funext fun x => ?_)
  rw [Logged.keeping_bind]
  rfl

/-- The finest level keeps everything. -/
theorem evaluateAt_trace (source : String) : evaluateAt .trace source = evaluate source := by
  have hall : ∀ note : Note, note.keptAt .trace = true := fun note => by cases note <;> rfl
  rw [evaluateAt, evaluateKeeping_eq, Logged.keeping, List.filter_eq_self.2 fun note _ => hall note]

/-! ## §4 What the journal tells -/

/-- The journal of a text with a value tells how it came about. After the note on its beginning
there is a note on each item, in order. Before that on a matrix come those on its numbers, row by
row, each with the row, counted from one, and the column, counted from zero, in which the matrix has
that number; and the matrix has a number in each row and column.

The notes of middle level are those on the items and on the reductions, one for each event. The
items arrive in order; each operator but the brackets is reduced once, after it arrived, and nothing
else is.

There is a warning for each matrix to be inverted whose reduced form is not the identity, in the
order of the inversions, and no other. And a journal of some level, which drops finer notes as they
come, is the full one without them, with the same result. -/
theorem journal_tells_evaluation {source : String} {a : DenseMatrix Float}
    (h : (evaluate source).result = .ok a) :
    ∃ items t later, Emits source items ∧ Outline.ofItems? items = some t ∧ t.value = .ok a ∧
      (evaluate source).notes = .evaluating source :: later ∧
      Note.inputs later = items.flatMap Item.inputNotes ∧
      (∀ item ∈ items, item.IsRead) ∧
      List.Forall₂ (Event.Shows items) (Item.events items) (Note.ofLevel .debug later) ∧
      (Item.events items).filterMap Event.arrival? = List.range items.length ∧
      ((Item.events items).filterMap Event.reduction?).Perm (Item.appliedPlaces items) ∧
      (∀ past, past <+: Item.events items → ∀ place, .reduction place ∈ past →
        .arrival place ∈ past) ∧
      Note.ofLevel .warn later =
        (t.inverted.filter fun b => !b.isRegular).map (fun b => .singular b.rows) ∧
      t.inverted.length = (items.filterMap Item.operator?).count (.unary .inverse) ∧
      evaluateAt .trace source = evaluate source ∧
      ∀ level, (evaluateAt level source).result = .ok a ∧ (evaluateAt level source).notes =
        (evaluateAt .trace source).notes.filter fun note => note.keptAt level := by
  obtain ⟨items, later, hemits, hvalue, hread, hnotes, hinputs, hlater⟩ := exists_journal h
  obtain ⟨t, ht⟩ := Outline.exists_ofItems? hvalue
  have htree : t.value = .ok a := (Outline.result_evaluateItems ht).symm.trans hvalue
  refine ⟨items, t, later, hemits, ht, htree, hnotes, hinputs, hread, ?_,
    Item.arrivals_events items, Item.perm_reductions hvalue, Item.arrival_mem_of_reduction, ?_, ?_,
    evaluateAt_trace source, fun level => ?_⟩
  · have hdebug : Note.ofLevel .debug later = Note.ofLevel .debug (evaluateItems items).notes :=
      hlater _ fun note hreading => by cases note <;> first | rfl | cases hreading
    rw [hdebug]
    exact Stacks.shows_evaluateItems hvalue
  · have hwarn : Note.ofLevel .warn later = Note.ofLevel .warn (evaluateItems items).notes :=
      hlater _ fun note hreading => by cases note <;> first | rfl | cases hreading
    rw [hwarn, Note.ofLevel_warn, Outline.work_evaluateItems ht hvalue, Tree.warnings_logged htree]
  · rw [Tree.length_inverted htree, (Outline.operators_of_ofItems? ht).count_eq,
      List.count_filter (by decide)]
  · rw [evaluateAt_trace, evaluateAt, evaluateKeeping_eq]
    exact ⟨h, rfl⟩

/-- The inverse waits until the product arrives, and the product until the end. The matrix to be
inverted has no inverse. -/
theorem journal_tells_evaluation_singular :
    let source := "inverse [1 2;2 4] * ([1 0;0 1] + [1 1;1 1])"
    (evaluate source).result = .ok ⟨⟨2, 2⟩, #[2, 1, -3, 0]⟩ ∧
    (∃ items later, Emits source items ∧ (evaluate source).notes = .evaluating source :: later ∧
      Note.inputs later = items.flatMap Item.inputNotes ∧
      List.Forall₂ (Event.Shows items) (Item.events items) (Note.ofLevel .debug later)) ∧
    (evaluateAt .debug source).notes.map Note.message =
      ["evaluating \"inverse [1 2;2 4] * ([1 0;0 1] + [1 1;1 1])\"", "operator inverse",
        "operand 2x2", "operator *", "inverse requested for a singular 2x2 matrix",
        "reduced inverse into 2x2", "operator (", "operand 2x2", "operator +", "operand 2x2",
        "operator )", "reduced + into 2x2", "reduced * into 2x2"] := by
  intro source
  have hvalue : (evaluate source).result = .ok ⟨⟨2, 2⟩, #[2, 1, -3, 0]⟩ := by decide +kernel
  obtain ⟨items, t, later, hemits, -, -, hnotes, hinputs, -, hevents, -, -, -, -, -, htrace,
    hlevel⟩ := journal_tells_evaluation hvalue
  refine ⟨hvalue, ⟨items, later, hemits, hnotes, hinputs, hevents⟩, ?_⟩
  rw [(hlevel .debug).2, htrace]
  decide +kernel

end MatrixCalc
