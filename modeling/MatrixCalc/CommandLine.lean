import MatrixCalc.Session

/-!
# The command line

The program takes the flags `-b` and `-V`, with the long names `--brackets` and `--version`, and one
expression. Arguments are looked at from left to right; the first one that cannot be taken, or that
asks for the version or for help, decides. The word `brackets` in place of an expression asks for
bracketed output. Without an expression the program reads a session from its input.

What the program writes beside its answers is not its own choice alone: which notes of the journal
are written to the standard error, and how, and the texts about help and about arguments that cannot
be taken. A `Console` holds these.
-/

namespace MatrixCalc

/-- What the arguments ask for. -/
inductive Request where
  | expression (style : Style) (source : String)
  | session (style : Style)
  | version
  | help
  | rejected
deriving DecidableEq, Repr

/-- What the program is started with to write beside its answers. -/
structure Console where
  /-- Which notes are written. -/
  keeps : Note → Bool
  /-- The line about a note, which can also tell the time. The lines are numbered. -/
  line : Nat → Note → String
  /-- The answer to a request for help. -/
  help : String
  /-- What is written about arguments that cannot be taken. -/
  refusal : String

namespace Console

/-- A console that writes nothing of its own. -/
def quiet : Console := ⟨fun _ => false, fun _ _ => "", "", ""⟩

/-- Warnings are written, each on a line of its own. -/
def warnings (help refusal : String) : Console :=
  ⟨fun note => note.level == .warn, fun _ note => "[WARN] " ++ note.message ++ "\n", help, refusal⟩

/-- The lines about some notes. -/
def log (console : Console) (notes : List Note) : String :=
  String.join ((notes.filter console.keeps).mapIdx console.line)

end Console

/-- What the program leaves: its exit status and all it wrote to its two outputs. -/
structure Report where
  status : UInt8
  output : String
  errors : String
deriving DecidableEq, Repr

namespace Request

/-! ## §1 Arguments -/

/-- The arguments taken so far. -/
structure Taken where
  brackets : Bool
  source? : Option String

def Taken.setBrackets (t : Taken) : Except Request Taken :=
  if t.brackets then .error .rejected else .ok { t with brackets := true }

def Taken.setSource (t : Taken) (source : String) : Except Request Taken :=
  if t.source?.isSome then .error .rejected else .ok { t with source? := some source }

/-- Takes the letters of one argument as short flags. -/
def Taken.setFlags (t : Taken) : List Char → Except Request Taken
  | [] => .ok t
  | c :: cs =>
    match c with
    | 'b' =>
      match t.setBrackets with
      | .ok u => u.setFlags cs
      | .error r => .error r
    | 'V' => .error .version
    | 'h' => .error .help
    | _ => .error .rejected

def Taken.setArgument (t : Taken) (argument : String) : Except Request Taken :=
  match argument.toList with
  | ['-'] => t.setSource argument
  | '-' :: '-' :: long =>
    if long = "brackets".toList then t.setBrackets
    else if long = "version".toList then .error .version
    else if long = "help".toList then .error .help
    else .error .rejected
  | '-' :: letters => t.setFlags letters
  | _ => t.setSource argument

/-- Takes all arguments. After a `--` no argument is a flag. -/
def Taken.setAll : Taken → List String → Except Request Taken
  | t, [] => .ok t
  | t, argument :: rest =>
    if argument = "--" then rest.foldlM Taken.setSource t
    else match t.setArgument argument with
      | .ok u => u.setAll rest
      | .error r => .error r

def ofTaken (t : Taken) : Request :=
  let style := if t.brackets || t.source? == some "brackets" then Style.bracketed else .plain
  match t.source? with
  | none => .session style
  | some source => if source = "brackets" then .session style else .expression style source

def ofArguments (arguments : List String) : Request :=
  match Taken.setAll ⟨false, none⟩ arguments with
  | .ok t => ofTaken t
  | .error r => r

/-- The first argument that cannot be taken, or that asks for the version, decides. -/
example : ([["-bV", "-x"], ["-bb", "-V"], ["-b", "--", "-1"], ["brackets"]].map ofArguments) =
    [.version, .rejected, .expression .bracketed "-1", .session .bracketed] := by decide +kernel

/-! ## §2 Answers -/

def versionText : String := "matrica 0.1.0\n"

def reportExpression (console : Console) (style : Style) (source : String) : Report :=
  let made := evaluateToText style source
  match made.result with
  | .ok text => ⟨0, asLines text, console.log made.notes⟩
  | .error f => ⟨1, "", console.log made.notes ++ (f.message ++ "\n")⟩

def reportSession (console : Console) (style : Style) (input : List UInt8) : Report :=
  let t := Session.transcript style (Session.lines input)
  ⟨Session.status t.decodable, String.join t.output,
    console.log t.notes ++ Session.errorText t.decodable⟩

/-- The report on a request, given the bytes of the input. -/
def report (input : List UInt8) (request : Request) (console : Console := .quiet) : Report :=
  match request with
  | expression style source => reportExpression console style source
  | session style => reportSession console style input
  | version => ⟨0, versionText, ""⟩
  | help => ⟨0, console.help, ""⟩
  | rejected => ⟨2, "", console.refusal⟩

end Request

end MatrixCalc
