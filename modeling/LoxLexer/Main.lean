import LoxLexer.Command.Run

/-!
# The program

Reads the files that the command line names, lets `run` answer, and prints the answer.
-/

set_option autoImplicit false

namespace LoxLexer

/-- The files that a request is about. -/
def Request.files : Request → List String
  | tokenize job => job.files
  | help _ | version => []

/-- The lines that a report takes on standard error. -/
def Report.lines (report : Report) : List String :=
  (report.code ++ ": " ++ report.message) ::
    report.place.toList.map fun place => "  at " ++ place.text

/-- The text that a notice takes on standard error. -/
def Notice.text : Notice → String
  | plain text => text
  | reports entries => unlines (entries.flatMap Report.lines)
  | usage => unlines ["error: the command line is not understood, try --help"]

/-- The bytes of a file, if it can be read. -/
def readFile (name : String) : IO (Option ByteArray) :=
  try
    return some (← IO.FS.readBinFile name)
  catch _ =>
    return none

/-- Reads files from the disk. -/
def loadFiles (names : List String) : IO FileSystem := do
  let contents ← names.mapM fun name => return (name, ← readFile name)
  return fun name => (contents.lookup name).join

end LoxLexer

open LoxLexer in
/-- Runs the program on the arguments of the command line. -/
def main (arguments : List String) : IO UInt32 := do
  let names := ((Request.ofArguments? arguments).map Request.files).getD []
  let outcome := run (← loadFiles names) arguments
  (← IO.getStdout).putStr outcome.stdout
  (← IO.getStderr).putStr outcome.stderr.text
  return UInt32.ofNat outcome.exitCode
