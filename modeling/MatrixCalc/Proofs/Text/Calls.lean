import MatrixCalc.Proofs.Text.Counters

/-!
# Calls to a draft

The draft of a literal can be used on its own: text, blanks, ends of rows and ends of the literal in
any order, and after a call that failed there may be others. What the counters say about the numbers
stays true all the same, and what was read is never lost (`Draft.counters_describe_values`).

Only the end of a row can change more than the row at hand: if it succeeds, one more row is begun
and the length of the first row is fixed. Every other call, and every call that fails, leaves these
two alone (`Draft.grown_call`).

§1 calls · §2 the counters after some calls · §3 what calls leave as it was · §4 the counters
describe the numbers
-/

namespace MatrixCalc

/-! ## §1 Calls -/

namespace Outcome

variable {σ β : Type}

/-- Work on a copy: its notes and its fault count, and the state stays as it is. -/
def onCopy (s : σ) (x : Logged β) : Outcome σ :=
  ⟨x.notes, s, match x.result with | .ok _ => none | .error f => some f⟩

theorem fault?_onCopy_eq_some {s : σ} {x : Logged β} {f : Fault} :
    (onCopy s x).fault? = some f ↔ x.result = .error f := by
  unfold onCopy
  cases x.result with
  | ok b => simp
  | error g => simp

theorem andThen_cases (x : Outcome σ) (f : σ → Outcome σ) :
    (∃ g, x.fault? = some g ∧ x.andThen f = x) ∨
      (x.fault? = none ∧ x.andThen f = (f x.state).after x.notes) := by
  unfold andThen
  cases hx : x.fault? with
  | some g => exact Or.inl ⟨g, rfl, rfl⟩
  | none => exact Or.inr ⟨rfl, rfl⟩

end Outcome

namespace Draft

inductive Call where
  | text (text : String) (column : Nat)
  | blank
  | endRow (column : Nat)
  /-- The end of the literal, at a column. It is a copy of the draft that ends. -/
  | close (column : Nat)

def call (d : Draft) : Call → Outcome Draft
  | .text text column => d.addText text column
  | .blank => .done d.addSpace []
  | .endRow column => d.endRow column
  | .close column => .onCopy d (d.close column)

/-- The draft after some calls, those that failed included. -/
def after (d : Draft) (calls : List Call) : Draft := calls.foldl (fun e c => (e.call c).state) d

theorem after_append (d : Draft) (calls more : List Call) :
    d.after (calls ++ more) = (d.after calls).after more :=
  List.foldl_append

theorem after_snoc (d : Draft) (calls : List Call) (c : Call) :
    d.after (calls ++ [c]) = ((d.after calls).call c).state :=
  after_append d calls [c]

/-! ## §2 The counters after some calls -/

variable {d e : Draft} {k : Nat}

/-- A call brings at most one number. -/
theorem keeps_call (h : d.Counted k) (c : Call) : (d.call c).Keeps (Counted (k + 1)) := by
  have hmore (e : Draft) (he : e.Counted k) : e.Counted (k + 1) := he.mono (Nat.le_succ k)
  cases c with
  | text text column => exact keeps_addText h text column
  | blank => exact Outcome.keeps_done (hmore _ (h.spaced true)) []
  | endRow column => exact (keeps_endRow h column).mono hmore
  | close column =>
    refine ⟨hmore d h, fun f hf => ?_⟩
    exact (safe_close h column).of_error (Outcome.fault?_onCopy_eq_some.1 hf)

/-- The counters are right after any calls, and no call brought two numbers. -/
theorem counted_after (calls : List Call) : (opened.after calls).Counted calls.length := by
  induction calls using List.reverseRecOn with
  | nil => exact counted_opened
  | append_singleton calls c ih =>
    rw [after_snoc, List.length_append]
    exact (keeps_call ih c).state

/-! ## §3 What calls leave as it was -/

/-- The numbers of `d` are the first of `e`, and `e` is still in the same row. -/
structure SameRow (d e : Draft) : Prop where
  values : d.values.toList <+: e.values.toList
  rows : e.rows = d.rows
  rowLength : e.rowLength? = d.rowLength?

/-- The numbers of `d` are the first of `e`, and a row of `d` has ended in between. If no row had
ended before, the length of this one is fixed. -/
structure NextRow (d e : Draft) : Prop where
  values : d.values.toList <+: e.values.toList
  rows : e.rows = d.rows + 1
  cols : e.cols = 0
  fixed : ∃ n, e.rowLength? = some n ∧ ∀ l, d.rowLength? = some l → n = l

theorem SameRow.refl (d : Draft) : d.SameRow d := ⟨List.prefix_refl _, rfl, rfl⟩

theorem sameRow_flush (d : Draft) : d.SameRow d.flush.state := by
  unfold flush
  by_cases hpiece : d.piece.isEmpty = true
  · rw [if_pos hpiece]
    exact ⟨List.prefix_refl _, rfl, rfl⟩
  rw [if_neg hpiece]
  cases hread : Numeral.read? d.piece with
  | none => exact ⟨List.prefix_refl _, rfl, rfl⟩
  | some value =>
    refine ⟨?_, rfl, rfl⟩
    show d.values.toList <+: (d.values.push value).toList
    rw [Array.toList_push]
    exact List.prefix_append _ _

theorem sameRow_addText (d : Draft) (text : String) (column : Nat) :
    d.SameRow (d.addText text column).state := by
  have hfirst : d.SameRow (if d.spaced then d.flush else .done d []).state := by
    split
    · exact sameRow_flush d
    · exact SameRow.refl d
  unfold addText
  rcases Outcome.andThen_cases (if d.spaced then d.flush else .done d [])
    fun e => .done (e.join text column) [] with ⟨g, -, heq⟩ | ⟨-, heq⟩
  · rw [heq]
    exact hfirst
  · rw [heq]
    exact ⟨hfirst.values, hfirst.rows, hfirst.rowLength⟩

/-- A row that cannot end leaves the draft as it was. -/
theorem state_fixRowLength_of_fault {column : Nat} {f : Fault}
    (h : (d.fixRowLength column).fault? = some f) : (d.fixRowLength column).state = d := by
  unfold fixRowLength at h ⊢
  by_cases hcols : d.cols = 0
  · rw [if_pos hcols]
    rfl
  rw [if_neg hcols] at h ⊢
  cases hlength : d.rowLength? with
  | none =>
    rw [hlength] at h
    cases h
  | some expected =>
    by_cases hsame : expected = d.cols
    · simp only [hlength, if_pos hsame] at h
      cases h
    · simp only [if_neg hsame]
      rfl

theorem sameRow_settle_of_fault {column : Nat} {f : Fault}
    (h : (d.settle column).fault? = some f) : d.SameRow (d.settle column).state := by
  unfold settle at h ⊢
  rcases Outcome.andThen_cases d.flush (fixRowLength column) with ⟨g, -, heq⟩ | ⟨-, heq⟩
  · rw [heq]
    exact sameRow_flush d
  · rw [heq] at h ⊢
    show d.SameRow (d.flush.state.fixRowLength column).state
    rw [state_fixRowLength_of_fault h]
    exact sameRow_flush d

/-- The end of a row that fails leaves the row open. -/
theorem sameRow_endRow {column : Nat} {f : Fault} (h : (d.endRow column).fault? = some f) :
    d.SameRow (d.endRow column).state := by
  unfold endRow at h ⊢
  rcases Outcome.andThen_cases (d.settle column) fun e =>
    .done { e with cols := 0, rows := e.rows + 1 } [.rowOpened (e.rows + 1)] with
    ⟨g, hg, heq⟩ | ⟨-, heq⟩
  · rw [heq]
    exact sameRow_settle_of_fault hg
  · rw [heq] at h
    cases h

/-- The end of a row that succeeds begins the next, and the length of the rows is fixed. -/
theorem nextRow_endRow {column : Nat} (h : (d.endRow column).fault? = none) :
    d.NextRow (d.endRow column).state := by
  obtain ⟨e, he⟩ : ∃ e, e = (d.endRow column).state := ⟨_, rfl⟩
  have hok : (d.endRow column).toLogged.result = .ok e :=
    Outcome.result_eq_ok_iff.2 ⟨h, he.symm⟩
  rw [← he]
  rw [endRow, Outcome.result_andThen] at hok
  obtain ⟨s, hs, hlast⟩ := bind_eq_ok_iff.1 hok
  rw [settle, Outcome.result_andThen] at hs
  obtain ⟨b, hb, hfix⟩ := bind_eq_ok_iff.1 hs
  obtain ⟨-, hlength, rfl⟩ := fixRowLength_eq_ok hfix
  obtain ⟨-, rfl⟩ := Outcome.result_eq_ok_iff.1 hb
  cases hlast
  have hflush := sameRow_flush d
  refine ⟨hflush.values, congrArg (· + 1) hflush.rows, rfl, d.flush.state.cols, rfl, ?_⟩
  intro l hl
  exact (hlength l (hflush.rowLength.trans hl)).symm

/-- Only the end of a row that succeeds begins another row or fixes a length. -/
theorem grown_call (d : Draft) (c : Call) :
    d.SameRow (d.call c).state ∨
      (∃ column, c = .endRow column) ∧ (d.call c).fault? = none ∧ d.NextRow (d.call c).state := by
  cases c with
  | text text column => exact Or.inl (sameRow_addText d text column)
  | blank => exact Or.inl ⟨List.prefix_refl _, rfl, rfl⟩
  | close column => exact Or.inl (SameRow.refl d)
  | endRow column =>
    cases hfault : (d.endRow column).fault? with
    | none => exact Or.inr ⟨⟨column, rfl⟩, hfault, nextRow_endRow hfault⟩
    | some f => exact Or.inl (sameRow_endRow hfault)

/-- Nothing of `d` is lost in `e`: not a number, and not a length that was fixed. -/
structure Grows (d e : Draft) : Prop where
  values : d.values.toList <+: e.values.toList
  rows : d.rows ≤ e.rows
  rowLength : ∀ n, d.rowLength? = some n → e.rowLength? = some n

theorem Grows.refl (d : Draft) : d.Grows d := ⟨List.prefix_refl _, Nat.le_refl _, fun _ h => h⟩

theorem Grows.trans {c : Draft} (h : c.Grows d) (h' : d.Grows e) : c.Grows e :=
  ⟨h.values.trans h'.values, h.rows.trans h'.rows, fun n hn => h'.rowLength n (h.rowLength n hn)⟩

theorem SameRow.grows (h : d.SameRow e) : d.Grows e :=
  ⟨h.values, h.rows.ge, fun _ hn => h.rowLength.trans hn⟩

theorem NextRow.grows (h : d.NextRow e) : d.Grows e := by
  obtain ⟨n, hlength, hold⟩ := h.fixed
  refine ⟨h.values, h.rows.ge.trans' (Nat.le_succ _), fun l hl => ?_⟩
  rw [hlength, hold l hl]

theorem grows_call (d : Draft) (c : Call) : d.Grows (d.call c).state := by
  rcases grown_call d c with hsame | ⟨-, -, hnext⟩
  · exact hsame.grows
  · exact hnext.grows

theorem grows_after (d : Draft) (calls : List Call) : d.Grows (d.after calls) := by
  induction calls using List.reverseRecOn with
  | nil => exact Grows.refl d
  | append_singleton calls c ih =>
    rw [after_snoc]
    exact ih.trans (grows_call _ c)

/-! ## §4 The counters describe the numbers -/

/-- After any calls, also after some that failed: as long as no length is fixed there is one row,
and its numbers are counted; once the length of the first row is fixed it is positive, all rows but
the last are as long as that, and the numbers of the last are counted. So the end of a literal, if
it succeeds, gives a shape with rows and columns and a number for each place, and the constructor
accepts them. Later calls lose no number and keep a fixed length. A call that fails begins no row,
and a length is fixed by the end of a row that succeeds and by nothing else. -/
theorem counters_describe_values (calls : List Call) :
    let d := opened.after calls
    (d.rowLength? = none → d.values.size = d.cols ∧ d.rows = 1) ∧
    (∀ n, d.rowLength? = some n →
      1 ≤ n ∧ 1 ≤ d.rows ∧ d.values.size = (d.rows - 1) * n + d.cols) ∧
    (∀ column shape values, (d.close column).result = .ok (shape, values) →
      1 ≤ shape.rows ∧ 1 ≤ shape.cols ∧ values.size = shape.rows * shape.cols ∧
      (values.size < DenseMatrix.wordCount →
        DenseMatrix.ofFlat shape.rows shape.cols values = .ok ⟨shape, values⟩)) ∧
    (∀ more : List Call, d.Grows (d.after more)) ∧
    ∀ c : Call,
      (∀ f, (d.call c).fault? = some f → d.SameRow (d.call c).state) ∧
      ((d.call c).state.rowLength? ≠ d.rowLength? →
        (∃ column, c = .endRow column) ∧ (d.call c).fault? = none) ∧
      (∀ column, c = .endRow column → (d.call c).fault? = none → d.NextRow (d.call c).state) := by
  intro d
  have hcounted : d.Counted calls.length := counted_after calls
  refine ⟨fun hnone => ?_, fun n hn => ?_, fun column shape values hclose => ?_,
    fun more => grows_after d more, fun c => ⟨fun f hf => ?_, fun hne => ?_, ?_⟩⟩
  · have hsize := hcounted.size_values
    rw [hcounted.first hnone, Nat.sub_self, Nat.zero_mul, Nat.zero_add] at hsize
    exact ⟨hsize, hcounted.first hnone⟩
  · have hsize := hcounted.size_values
    rw [hn, Option.getD_some] at hsize
    exact ⟨hcounted.length_pos n hn, hcounted.rows_pos, hsize⟩
  · obtain ⟨hwell, -⟩ := (safe_close hcounted column).of_ok hclose
    have hsize : values.size = shape.rows * shape.cols := hwell.size_values
    refine ⟨hwell.rows_pos, hwell.cols_pos, hsize, fun hcount => ?_⟩
    exact DenseMatrix.ofFlat_of_wellFormed hwell (hsize ▸ hcount)
  · rcases grown_call d c with hsame | ⟨-, hnone, -⟩
    · exact hsame
    · rw [hnone] at hf
      cases hf
  · rcases grown_call d c with hsame | ⟨hend, hnone, -⟩
    · exact absurd hsame.rowLength hne
    · exact ⟨hend, hnone⟩
  · rintro column rfl hnone
    exact nextRow_endRow hnone

/-- Two rows of two numbers. The second row could not end when it had only a sign, and again when it
had one number. -/
theorem counters_describe_values_two_failures :
    let early : List Call := [.text "1" 1, .blank, .text "2" 3, .endRow 4, .text "-" 5]
    let late : List Call := [.endRow 6, .text "3" 7, .endRow 8, .text "4" 9]
    let d := opened.after (early ++ late)
    (opened.after early).SameRow ((opened.after early).call (.endRow 6)).state ∧
    ((opened.after early).call (.endRow 6)).fault? =
      some (.text ⟨.invalidNumber "-", 5⟩) ∧
    (opened.after early).Grows d ∧
    (d.rowLength? = some 2 ∧ d.values.size = (d.rows - 1) * 2 + d.cols) ∧
    ∃ shape values, (d.close 10).result = .ok (shape, values) ∧ shape = ⟨2, 2⟩ ∧
      DenseMatrix.ofFlat shape.rows shape.cols values = .ok ⟨shape, values⟩ := by
  intro early late d
  obtain ⟨-, -, -, hgrows, hcalls⟩ := counters_describe_values early
  obtain ⟨-, hlocked, hclose, -⟩ := counters_describe_values (early ++ late)
  have hfault : ((opened.after early).call (.endRow 6)).fault? =
      some (.text ⟨.invalidNumber "-", 5⟩) := by decide +kernel
  have hlength : d.rowLength? = some 2 := by decide +kernel
  refine ⟨(hcalls (.endRow 6)).1 _ hfault, hfault, ?_, ⟨hlength, (hlocked 2 hlength).2.2⟩, ?_⟩
  · show (opened.after early).Grows (opened.after (early ++ late))
    rw [after_append]
    exact hgrows late
  · have hshape : ((d.close 10).result.map (·.1)) = .ok ⟨2, 2⟩ := by decide +kernel
    cases hresult : (d.close 10).result with
    | error f =>
      rw [hresult] at hshape
      cases hshape
    | ok x =>
      rw [hresult] at hshape
      obtain ⟨shape, values⟩ := x
      obtain ⟨-, -, hsize, haccepts⟩ := hclose 10 shape values hresult
      cases hshape
      exact ⟨_, values, rfl, rfl, haccepts (hsize ▸ by decide)⟩

end Draft

end MatrixCalc
