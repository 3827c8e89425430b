import MatrixCalc.Decimal.Layout
import MatrixCalc.Fault
import MatrixCalc.Text

/-!
# The journal

What happens on the way to a result is noted in a journal. A note is data; its level and its
sentence are functions of it. Notes are returned beside the result and are never read by the work
that writes them, so no result depends on the level at which a journal is kept.
-/

namespace MatrixCalc

universe u v

/-! ## §1 Notes -/

/-- How grave a note is, from the gravest to the finest. -/
inductive Level where
  | warn
  | debug
  | trace
deriving DecidableEq, Repr

/-- Something that happened on the way to a result. -/
inductive Note where
  | evaluating (source : String)
  | literalOpened (column : Nat)
  | literalClosed (column : Nat)
  /-- A number of a literal was read, in a row counted from one and a column counted from zero. -/
  | valueRead (value : Float) (row col : Nat)
  | rowOpened (row : Nat)
  | operand (shape : Shape)
  /-- An operator or a group bracket arrives. -/
  | operator (op : Operator)
  | reduced (op : Operator) (shape : Shape)
  /-- A pivot of the echelon form, where it stood and the row it was moved to. -/
  | echelonPivot (row col target : Nat)
  /-- A pivot of the reduced echelon form. -/
  | reducedPivot (row col target : Nat)
  /-- A square matrix without an inverse was to be inverted. -/
  | singular (size : Nat)

namespace Level

def detail : Level → Nat
  | warn => 0
  | debug => 1
  | trace => 2

end Level

namespace Note

def level : Note → Level
  | singular _ => .warn
  | evaluating _ | operand _ | operator _ | reduced _ _ => .debug
  | literalOpened _ | literalClosed _ | valueRead _ _ _ | rowOpened _ | echelonPivot _ _ _
  | reducedPivot _ _ _ => .trace

def message : Note → String
  | evaluating source => "evaluating " ++ Text.quoted source
  | literalOpened column => s!"scanner: literal opened at column {column}"
  | literalClosed column => s!"scanner: literal closed at column {column}"
  | valueRead value row col =>
    "literal: value " ++ Layout.journal.write value ++ s!" at row {row}, col {col}"
  | rowOpened row => s!"literal: row {row} opened"
  | operand shape => s!"operand {shape.text}"
  | operator op => s!"operator {op.text}"
  | reduced op shape => s!"reduced {op.text} into {shape.text}"
  | echelonPivot row col target => s!"ref: pivot at ({row}, {col}) for row {target}"
  | reducedPivot row col target => s!"rref: pivot at ({row}, {col}) for row {target}"
  | singular size => s!"inverse requested for a singular {size}x{size} matrix"

/-- Whether a journal of some level keeps the note: it keeps that level and the graver ones. -/
def keptAt (level : Level) (n : Note) : Bool := n.level.detail ≤ level.detail

end Note

/-! ## §2 Results with notes -/

/-- A result and the notes written on the way to it. The notes up to a fault are kept. -/
structure Logged (β : Type u) where
  notes : List Note
  result : Except Fault β

namespace Logged

variable {β γ : Type u}

def ofExcept (r : Except Fault β) : Logged β := ⟨[], r⟩

def fail (f : Fault) : Logged β := ⟨[], .error f⟩

def after (notes : List Note) (x : Logged β) : Logged β := { x with notes := notes ++ x.notes }

/-- What is left of the notes if only some are kept. -/
def keeping (keeps : Note → Bool) (x : Logged β) : Logged β :=
  { x with notes := x.notes.filter keeps }

/-- A result followed by further work on it, unless it is a fault. -/
def bind (x : Logged β) (f : β → Logged γ) : Logged γ :=
  match x.result with
  | .error e => ⟨x.notes, .error e⟩
  | .ok b => (f b).after x.notes

instance : Monad Logged where
  pure b := ⟨[], .ok b⟩
  bind := bind

@[simp] theorem result_pure (b : β) : (pure b : Logged β).result = .ok b := rfl

@[simp] theorem notes_pure (b : β) : (pure b : Logged β).notes = [] := rfl

@[simp] theorem result_after (notes : List Note) (x : Logged β) :
    (x.after notes).result = x.result := rfl

@[simp] theorem notes_after (notes : List Note) (x : Logged β) :
    (x.after notes).notes = notes ++ x.notes := rfl

@[simp] theorem keeping_all (x : Logged β) : x.keeping (fun _ => true) = x := by
  rw [keeping, List.filter_eq_self.2 fun _ _ => rfl]

/-- Whether further work is done depends on the result alone and not on the notes. -/
@[simp] theorem result_bind (x : Logged β) (f : β → Logged γ) :
    (x >>= f).result = x.result.bind fun b => (f b).result := by
  show (bind x f).result = _
  unfold bind
  cases h : x.result <;> rfl

/-- The notes of further work follow those of the work before it. -/
theorem notes_bind_of_ok {x : Logged β} {b : β} (h : x.result = .ok b) (f : β → Logged γ) :
    (x >>= f).notes = x.notes ++ (f b).notes := by
  show (bind x f).notes = _
  unfold bind
  rw [h]
  rfl

end Logged

/-! ## §3 Moves of a state -/

/-- What a move leaves behind: the state in any case, and the fault if the move failed. -/
structure Outcome (σ : Type u) where
  notes : List Note
  state : σ
  fault? : Option Fault

namespace Outcome

variable {σ : Type u} {τ : Type v}

def done (s : σ) (notes : List Note) : Outcome σ := ⟨notes, s, none⟩

def failed (s : σ) (f : Fault) : Outcome σ := ⟨[], s, some f⟩

def after (notes : List Note) (x : Outcome σ) : Outcome σ := { x with notes := notes ++ x.notes }

/-- A second move, made if the first succeeds. -/
def andThen (x : Outcome σ) (f : σ → Outcome σ) : Outcome σ :=
  match x.fault? with
  | some _ => x
  | none => (f x.state).after x.notes

def map (f : σ → τ) (x : Outcome σ) : Outcome τ := ⟨x.notes, f x.state, x.fault?⟩

/-- The outcome where only a state reached without fault counts. -/
def toLogged (x : Outcome σ) : Logged σ :=
  ⟨x.notes, match x.fault? with | some f => .error f | none => .ok x.state⟩

@[simp] theorem andThen_done (s : σ) (notes : List Note) (f : σ → Outcome σ) :
    (done s notes).andThen f = (f s).after notes := rfl

@[simp] theorem andThen_failed (s : σ) (e : Fault) (f : σ → Outcome σ) :
    (failed s e).andThen f = failed s e := rfl

end Outcome

end MatrixCalc
