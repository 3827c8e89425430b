import MatrixCalc.Proofs.Outline.Reducers
import MatrixCalc.Proofs.Text.Counters

/-!
# Faults that are never met

Three faults stand guard where nothing can be wrong: rows of different lengths, a matrix without
entries and an operator that cannot be applied. No text is refused with one of them and no sequence
of calls runs into one, also if calls that failed are followed by others; what comes out is well
formed (`defensive_faults_unreachable`).

§1 evaluation with another reduction · §2 reading and reducing · §3 texts and calls
-/

namespace MatrixCalc

/-! ## §1 Evaluation with another reduction -/

def evaluateTokensWith (red : Reducer Float) :
    List Placed → Reading → Stacks Float → Logged (Reading × Stacks Float)
  | [], reading, waiting => pure (reading, waiting)
  | t :: ts, reading, waiting => do
    let (next, item?) ← reading.step t.token t.column
    match item? with
    | none => evaluateTokensWith red ts next waiting
    | some item =>
      let fed ← (waiting.feedWith red item).toLogged
      evaluateTokensWith red ts next fed

def evaluateWith (red : Reducer Float) (source : String) : Logged (DenseMatrix Float) :=
  Logged.after [.evaluating source] do
    let tokens ← .ofExcept ((Token.lex source).mapError .text)
    let (reading, waiting) ← evaluateTokensWith red tokens .outside .empty
    .ofExcept ((reading.finish source.utf8ByteSize).mapError .text)
    waiting.finishWith red

/-! ## §2 Reading and reducing -/

/-- On the way through a text the stacks stay sound and the counters right. -/
theorem safe_evaluateTokens {ts : List Placed} {r : Reading} {s : Stacks Float} {k : Nat}
    (hr : r.Counted k) (hk : k + ts.length < DenseMatrix.wordCount) (hs : s.Sound) :
    Safe (fun x => x.2.Sound) (evaluateTokens ts r s).result := by
  induction ts generalizing r s k with
  | nil => exact hs
  | cons t ts ih =>
    rw [List.length_cons] at hk
    rw [evaluateTokens_cons, Logged.result_bind]
    refine (Reading.safe_step hr (by omega) t.token t.column).bind fun x hx => ?_
    obtain ⟨next, item?⟩ := x
    obtain ⟨hnext, hitem⟩ := hx
    cases item? with
    | none => exact ih hnext (by omega) hs
    | some item =>
      rw [Logged.result_bind]
      exact (Stacks.keeps_feed (hitem item rfl) hs).safe.bind fun fed hfed =>
        ih hnext (by omega) hfed

theorem length_of_lex {source : String} {placed : List Placed}
    (h : Token.lex source = .ok placed) : placed.length ≤ source.length := by
  have hlex : Token.lexFrom 0 source.toList = .ok placed := h
  have hle := (Token.lexes_of_lexFrom hlex).length_le
  rwa [List.length_map, String.length_toList] at hle

/-- The value of a text is well formed, and its fault is not a defensive one. -/
theorem safe_evaluate {source : String} (hsize : source.length < DenseMatrix.wordCount) :
    Safe DenseMatrix.WellFormed (evaluate source).result := by
  cases hlex : Token.lex source with
  | error f =>
    rw [result_evaluate_of_lex_eq_error hlex]
    exact not_false
  | ok placed =>
    rw [result_evaluate_of_lex_eq_ok hlex]
    have hplaced := length_of_lex hlex
    have hread : Reading.outside.Counted 0 := trivial
    refine (safe_evaluateTokens hread (by omega) Stacks.sound_empty).bind fun x hx => ?_
    obtain ⟨reading, waiting⟩ := x
    dsimp only
    cases reading with
    | inside d => exact not_false
    | outside => exact Stacks.safe_finish hx

/-- Reading and reducing with a reduction that agrees is the same. -/
theorem evaluateTokensWith_eq {red : Reducer Float} (hred : red.Agrees) {ts : List Placed}
    {r : Reading} {s : Stacks Float} {k : Nat} (hr : r.Counted k)
    (hk : k + ts.length < DenseMatrix.wordCount) (hs : s.Sound)
    (hnotes : ∀ note ∈ (evaluateTokens ts r s).notes, note.isCountable = true) :
    evaluateTokensWith red ts r s = evaluateTokens ts r s := by
  induction ts generalizing r s k with
  | nil => rfl
  | cons t ts ih =>
    rw [List.length_cons] at hk
    rw [evaluateTokens_cons] at hnotes ⊢
    rw [evaluateTokensWith]
    refine Logged.bind_congr fun x hx => ?_
    obtain ⟨next, item?⟩ := x
    have hlater := (Logged.forall_notes_bind hnotes).2 _ hx
    obtain ⟨hnext, hitem⟩ := (Reading.safe_step hr (by omega) t.token t.column).of_ok hx
    cases item? with
    | none => exact ih hnext (by omega) hs hlater
    | some item =>
      obtain ⟨hfirst, hrest⟩ := Logged.forall_notes_bind hlater
      show (s.feedWith red item).toLogged >>= _ = _
      rw [Stacks.feedWith_eq hred hs hfirst]
      refine Logged.bind_congr fun fed hfed => ?_
      have hsound := (Stacks.keeps_feed (hitem item rfl) hs).safe.of_ok hfed
      exact ih hnext (by omega) hsound (hrest fed hfed)

/-- The value of a text is the same with every reduction that agrees. -/
theorem evaluateWith_eq {red : Reducer Float} (hred : red.Agrees) {source : String}
    (hsize : source.length < DenseMatrix.wordCount)
    (hnotes : ∀ note ∈ (evaluate source).notes, note.isCountable = true) :
    evaluateWith red source = evaluate source := by
  have hread : Reading.outside.Counted 0 := trivial
  unfold evaluateWith
  rw [evaluate_eq] at hnotes ⊢
  refine congrArg (Logged.after [.evaluating source]) ?_
  replace hnotes := (List.forall_mem_append.1 hnotes).2
  refine Logged.bind_congr fun placed hlex => ?_
  have hplaced : placed.length ≤ source.length := by
    cases h : Token.lex source with
    | error f => rw [h] at hlex; cases hlex
    | ok ts => rw [h] at hlex; cases hlex; exact length_of_lex h
  have htokens := (Logged.forall_notes_bind hnotes).2 placed hlex
  obtain ⟨hfirst, hlater⟩ := Logged.forall_notes_bind htokens
  rw [evaluateTokensWith_eq hred hread (by omega) Stacks.sound_empty hfirst]
  refine Logged.bind_congr fun x hx => ?_
  have hsound : x.2.Sound := (safe_evaluateTokens hread (by omega) Stacks.sound_empty).of_ok hx
  obtain ⟨reading, waiting⟩ := x
  refine Logged.bind_congr fun _ hfinish => ?_
  exact Stacks.finishWith_eq hred hsound
    ((Logged.forall_notes_bind (hlater _ hx)).2 _ hfinish)

/-! ## §3 Texts and calls -/

/-- Every text has a well-formed value or a fault that is not defensive. A text in memory has fewer
than `2 ^ 64` characters. The same holds for every sequence of calls, also after calls that failed:
the stacks stay sound, and they end with a well-formed value or a fault that is not defensive. It
makes no difference what a reduction would do to a bracket, so none is ever asked to reduce one; and
as long as results have fewer than `2 ^ 64` entries, a reduction that counts them never objects. -/
theorem defensive_faults_unreachable :
    (∀ source : String, source.length < DenseMatrix.wordCount →
      Safe DenseMatrix.WellFormed (evaluate source).result ∧
      ∀ red : Reducer Float, red.Agrees →
        (∀ note ∈ (evaluate source).notes, note.isCountable = true) →
          evaluateWith red source = evaluate source) ∧
    (∀ calls : List (Item Float), (∀ item ∈ calls, item.IsWellFormed) →
      (Stacks.reached calls).Sound ∧
      (∀ item : Item Float, item.IsWellFormed →
        ((Stacks.reached calls).feed item).Keeps Stacks.Sound) ∧
      Safe DenseMatrix.WellFormed (Stacks.reached calls).finish.result ∧
      ∀ red : Reducer Float, red.Agrees →
        (∀ item, (∀ note ∈ ((Stacks.reached calls).feed item).notes, note.isCountable = true) →
          (Stacks.reached calls).feedWith red item = (Stacks.reached calls).feed item) ∧
        ((∀ note ∈ (Stacks.reached calls).finish.notes, note.isCountable = true) →
          (Stacks.reached calls).finishWith red = (Stacks.reached calls).finish)) ∧
    (Stacks.reduceChecked : Reducer Float).Agrees := by
  refine ⟨fun source hsize => ⟨safe_evaluate hsize, fun red hred hnotes =>
    evaluateWith_eq hred hsize hnotes⟩, fun calls hcalls => ?_, Stacks.agrees_reduceChecked⟩
  have hsound := Stacks.sound_reached hcalls
  exact ⟨hsound, fun item hitem => Stacks.keeps_feed hitem hsound, Stacks.safe_finish hsound,
    fun red hred => ⟨fun item hnotes => Stacks.feedWith_eq hred hsound hnotes,
      fun hnotes => Stacks.finishWith_eq hred hsound hnotes⟩⟩

/-- A product whose entries are counted again, and stacks on which a second plus finds no operands
for the first. -/
theorem defensive_faults_unreachable_product :
    evaluateWith Stacks.reduceChecked "[1 2] * [3;4]" = evaluate "[1 2] * [3;4]" ∧
    ((Stacks.reached [.operator (.binary .plus)] : Stacks Float).feed
      (.operator (.binary .plus))).fault? = some (.calculation (.missingOperand (.binary .plus))) ∧
    (Stacks.reached [.operator (.binary .plus), .operator (.binary .plus)] :
      Stacks Float).Sound := by
  obtain ⟨htexts, hcalls, hchecked⟩ := defensive_faults_unreachable
  refine ⟨(htexts "[1 2] * [3;4]" (by decide)).2 _ hchecked (by decide +kernel), rfl, ?_⟩
  refine (hcalls _ fun item hitem a ha => ?_).1
  rcases List.mem_pair.1 hitem with rfl | rfl <;> cases ha

end MatrixCalc
