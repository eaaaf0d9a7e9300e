import LoxLexer.Command.Arguments
import LoxLexer.Command.Help
import LoxLexer.Command.Report
import LoxLexer.Json.Lexed
import LoxLexer.Lex
import LoxLexer.Text.Lines

/-!
# Running the program

`run` answers a command line, given what the files hold: it tells the exit code, what goes to
standard output and what goes to standard error. A job on several files either reads all of
them or does nothing but report the first that cannot be read or, if all can be read, the
first that is not text.

Of a report only its code, its message and its place are kept; how it is drawn is up to a library
outside the program. Writing is taken to succeed. The variable `RUST_LOG`, which asks for a log on
standard error, is taken to be unset, so that nothing else goes there.
-/

set_option autoImplicit false

namespace LoxLexer

/-! ## Files -/

/-- What the files hold; none for a name that cannot be read. -/
abbrev FileSystem : Type := String → Option ByteArray

/-- A file that has been read as text. -/
structure SourceFile where
  name : String
  text : String
deriving DecidableEq

/-- The bytes of a file, or a report. -/
def readBytes (files : FileSystem) (name : String) : Except Report (String × ByteArray) :=
  match files name with
  | some bytes => .ok (name, bytes)
  | none => .error (.unreadable name)

/-- The text of a file, or a report. -/
def decodeText (file : String × ByteArray) : Except Report SourceFile :=
  match String.fromUTF8? file.2 with
  | some text => .ok ⟨file.1, text⟩
  | none => .error (.notText file.1)

/-- The texts of some files. All are read before any is decoded. -/
def readSources (files : FileSystem) (names : List String) : Except Report (List SourceFile) :=
  (names.mapM (readBytes files)).bind fun contents => contents.mapM decodeText

/-! ## Outcomes -/

/-- What a run has to say beside its output. -/
inductive Notice where
  /-- Lines of text, or nothing. -/
  | plain (text : String)
  | reports (entries : List Report)
  /-- The command line is not understood. -/
  | usage
deriving DecidableEq

/-- What a run comes to. -/
structure Outcome where
  exitCode : Nat
  stdout : String
  stderr : Notice
deriving DecidableEq

/-- A run that prints something and succeeds. -/
def Outcome.printing (text : String) : Outcome := ⟨0, text, .plain ""⟩

/-- The exit code of a run that found faults in a source. -/
def faultyExitCode : Nat := 65

/-- The exit code of a run that could not be carried out. -/
def failureExitCode : Nat := 1

/-! ## Tokenizing -/

/-- How a lexed source is listed. -/
def Lexed.listing (lexed : Lexed) : Format → String
  | .text => unlines (lexed.tokens.map Token.text)
  | .json => unlines [lexed.json.text]

/-- What is said about the diagnostics of some sources. JSON listings hold them already. -/
def noticeOf (format : Format) (pretty : Bool) (sources : List (SourceFile × Lexed)) : Notice :=
  match format, pretty with
  | .json, _ => .plain ""
  | .text, false =>
      .plain (unlines (sources.flatMap fun source => source.2.diagnostics.map Diagnostic.text))
  | .text, true =>
      .reports (sources.flatMap fun source =>
        source.2.diagnostics.map (Report.ofDiagnostic source.1.name source.1.text))

/-- Tokenizes sources and lists them in order. -/
def tokenize (format : Format) (pretty : Bool) (files : List SourceFile) : Outcome :=
  let sources := files.zip (lexAll (files.map SourceFile.text))
  { exitCode := if sources.any fun source => source.2.hasErrors then faultyExitCode else 0
    stdout := String.join (sources.map fun source => source.2.listing format)
    stderr := noticeOf format pretty sources }

/-- Carries out a job. -/
def Job.run (job : Job) (files : FileSystem) : Outcome :=
  match readSources files job.files with
  | .ok sources => tokenize job.format job.pretty sources
  | .error report => ⟨failureExitCode, "", .reports [report]⟩

/-! ## Requests -/

/-- Answers a request. -/
def Request.run (request : Request) (files : FileSystem) : Outcome :=
  match request with
  | tokenize job => job.run files
  | help topic => .printing topic.text
  | version => .printing versionText

/-- **Answers a command line.** -/
def run (files : FileSystem) (arguments : List String) : Outcome :=
  match Request.ofArguments? arguments with
  | some request => request.run files
  | none => ⟨failureExitCode, "", .usage⟩

theorem run_of_accepted {files : FileSystem} {arguments : List String} {job : Job}
    (h : Request.ofArguments? arguments = some (.tokenize job)) :
    run files arguments = job.run files := by
  rw [run, h]
  rfl

theorem run_of_refused {files : FileSystem} {arguments : List String}
    (h : Request.ofArguments? arguments = none) :
    run files arguments = ⟨failureExitCode, "", .usage⟩ := by
  rw [run, h]

end LoxLexer
