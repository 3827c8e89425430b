import MatrixCalc.Reading
import MatrixCalc.Stacks
import MatrixCalc.Token.Lexer

/-!
# Evaluation

The value of an expression given as text. The whole text is cut into tokens first, so a character
that begins no token is reported before anything else. Then each token is read and the item it
completes is reduced before the next token is looked at.

A journal can be kept in full or only in part; notes that are not kept are dropped as they come.
-/

namespace MatrixCalc

universe u

def evaluateItems {α : Type u} [Scalar α] (items : List (Item α)) : Logged (DenseMatrix α) := do
  let waiting ← (Stacks.empty.feedAll items).toLogged
  waiting.finish

/-! ## §1 With a part of the journal -/

section Keeping

variable (keeps : Note → Bool)

/-- Reads and reduces some tokens from a given state on. -/
def evaluateTokensKeeping :
    List Placed → Reading → Stacks Float → Logged (Reading × Stacks Float)
  | [], reading, waiting => pure (reading, waiting)
  | t :: ts, reading, waiting => do
    let (next, item?) ← (reading.step t.token t.column).keeping keeps
    match item? with
    | none => evaluateTokensKeeping ts next waiting
    | some item =>
      let fed ← (waiting.feed item).toLogged.keeping keeps
      evaluateTokensKeeping ts next fed

/-- The value of an expression. -/
def evaluateKeeping (source : String) : Logged (DenseMatrix Float) :=
  Logged.after ([.evaluating source].filter keeps) do
    let tokens ← .ofExcept ((Token.lex source).mapError .text)
    let (reading, waiting) ← evaluateTokensKeeping keeps tokens .outside .empty
    .ofExcept ((reading.finish source.utf8ByteSize).mapError .text)
    waiting.finish.keeping keeps

end Keeping

/-- The value of an expression, with a journal of some level. -/
def evaluateAt (level : Level) (source : String) : Logged (DenseMatrix Float) :=
  evaluateKeeping (fun note => note.keptAt level) source

/-! ## §2 With the full journal -/

def evaluateTokens (ts : List Placed) (reading : Reading) (waiting : Stacks Float) :
    Logged (Reading × Stacks Float) :=
  evaluateTokensKeeping (fun _ => true) ts reading waiting

def evaluate (source : String) : Logged (DenseMatrix Float) :=
  evaluateKeeping (fun _ => true) source

theorem evaluateTokens_cons (t : Placed) (ts : List Placed) (reading : Reading)
    (waiting : Stacks Float) :
    evaluateTokens (t :: ts) reading waiting = (do
      let (next, item?) ← reading.step t.token t.column
      match item? with
      | none => evaluateTokens ts next waiting
      | some item =>
        let fed ← (waiting.feed item).toLogged
        evaluateTokens ts next fed) := by
  simp only [evaluateTokens, evaluateTokensKeeping, Logged.keeping_all]

theorem evaluate_eq (source : String) :
    evaluate source = Logged.after [.evaluating source] (do
      let tokens ← .ofExcept ((Token.lex source).mapError .text)
      let (reading, waiting) ← evaluateTokens tokens .outside .empty
      .ofExcept ((reading.finish source.utf8ByteSize).mapError .text)
      waiting.finish) := by
  simp only [evaluate, evaluateKeeping, evaluateTokens, Logged.keeping_all,
    List.filter_cons_of_pos, List.filter_nil]

def evaluateToText (style : Style) (source : String) : Logged String := do
  let a ← evaluate source
  return a.text style

/-! ## §3 Examples -/

/-- Multiplication is reduced before addition. -/
example : (evaluateToText .bracketed "[1 2;3 4] * [1;1] + [1;1]").result.toOption =
    some "[ 4.0 ; 8.0 ]" := by decide +kernel

/-- Only one waiting operator is reduced when another arrives, so after a product the sum on the
right is taken before the difference on its left. -/
example : (evaluateToText .bracketed "[9] - [2] * [3] + [1]").result.toOption =
    some "[ 2.0 ]" := by decide +kernel

end MatrixCalc
