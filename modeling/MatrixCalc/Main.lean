import MatrixCalc.CommandLine

/-!
# The program

Reads the arguments and the standard input and writes what the library answers. A session is
answered line by line as the lines come in.
-/

namespace MatrixCalc

/-- The program warns, and has its own words for help and about arguments. -/
def console : Console :=
  .warnings "Usage: matrica [-b | --brackets] [-V | --version] [-h | --help] [EXPRESSION]\n"
    "The arguments are not understood; --help shows those that are.\n"

def writeOut (texts : List String) : IO Unit := do
  for text in texts do
    IO.print text
    (← IO.getStdout).flush

def endSession (decodable : Bool) : IO UInt8 := do
  IO.eprint (Session.errorText decodable)
  return Session.status decodable

/-- Answers the complete lines among the bytes read so far, then reads on. -/
partial def runSession (style : Style) (bytes : List UInt8) : IO UInt8 := do
  match Session.move style bytes with
  | .write text notes rest =>
    IO.eprint (console.log notes)
    writeOut [text]
    runSession style rest
  | .finish decodable => endSession decodable
  | .read pending =>
    let chunk ← (← IO.getStdin).read 4096
    if chunk.isEmpty then
      let last := Session.transcript style (Session.lines pending)
      IO.eprint (console.log last.notes)
      writeOut last.output
      endSession last.decodable
    else runSession style (pending ++ chunk.toList)

def run (arguments : List String) : IO UInt8 := do
  match Request.ofArguments arguments with
  | .session style => runSession style []
  | request =>
    let report := request.report [] console
    IO.print report.output
    IO.eprint report.errors
    return report.status

end MatrixCalc

def main (arguments : List String) : IO UInt32 := do
  return (← MatrixCalc.run arguments).toUInt32
