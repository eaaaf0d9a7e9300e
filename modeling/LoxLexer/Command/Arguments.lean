import LoxLexer.Command.Request

/-!
# Command lines

`Request.ofArguments?` reads the arguments of a command line from left to right and refuses
it at the first argument that it cannot take. A request for help or for the version is
granted where it stands, whatever follows it.

Arguments that begin with a dash are options, but for a single dash and for all that stands
behind `--`; those are files like any other argument. An empty argument is no file. The
format and the wish for reports may each be given once.

The commands, the options and their values are the program's own. How they may be written and
what is refused are the rules of the argument parser that the program is built on, a library
outside it; the definitions follow these rules for the arguments that the program declares.
-/

set_option autoImplicit false

namespace LoxLexer

/-! ## Arguments -/

/-- Whether a text begins with another one. -/
def beginsWith (front text : String) : Bool := front.toList.isPrefixOf text.toList

/-- What an argument of `tokenize` says, in front of `--`. -/
inductive Argument where
  | endOfOptions
  | help
  | pretty
  /-- The format is the value, or the next argument if there is none. -/
  | format (value : Option String)
  | file (name : String)
  /-- An unknown option, or nothing at all. -/
  | refused
deriving DecidableEq

/-- The meaning of an argument. Letters behind `-h` are never looked at. -/
def Argument.ofString (argument : String) : Argument :=
  if argument = "--" then .endOfOptions
  else if argument = "--help" || beginsWith "-h" argument then .help
  else if argument = "--pretty" then .pretty
  else if argument = "--format" then .format none
  else if beginsWith "--format=" argument then
    .format (some (String.ofList (argument.toList.drop 9)))
  else if argument = "-" then .file argument
  else if beginsWith "-" argument || argument = "" then .refused
  else .file argument

/-! ## Jobs -/

/-- A job of which some arguments have been read. -/
structure Draft where
  format : Option Format
  pretty : Bool
  files : List String

namespace Draft

/-- The job before its first argument. -/
def blank : Draft := ⟨none, false, []⟩

/-- Sets the format by its name, which may be done once. -/
def setFormat? (draft : Draft) (name : String) : Option Draft :=
  match draft.format, Format.ofName? name with
  | none, some format => some { draft with format := some format }
  | _, _ => none

/-- Asks for reports, which may be done once. -/
def setPretty? (draft : Draft) : Option Draft :=
  if draft.pretty then none else some { draft with pretty := true }

/-- Adds files, none of which may be empty. -/
def addFiles? (draft : Draft) (names : List String) : Option Draft :=
  if names.contains "" then none else some { draft with files := draft.files ++ names }

/-- The finished job, which needs a file. Tokens are listed as text by default. -/
def request? (draft : Draft) : Option Request :=
  if draft.files.isEmpty then none
  else some (.tokenize ⟨draft.format.getD .text, draft.pretty, draft.files⟩)

end Draft

/-- Reads the arguments of `tokenize` that are left. -/
def readTokenize (draft : Draft) : List String → Option Request
  | [] => draft.request?
  | argument :: rest =>
      match Argument.ofString argument with
      | .endOfOptions => (draft.addFiles? rest).bind Draft.request?
      | .help => some (.help .tokenize)
      | .pretty => draft.setPretty?.bind fun draft => readTokenize draft rest
      | .format (some value) => (draft.setFormat? value).bind fun draft => readTokenize draft rest
      | .format none =>
          match rest with
          | [] => none
          | value :: rest => (draft.setFormat? value).bind fun draft => readTokenize draft rest
      | .file name => (draft.addFiles? [name]).bind fun draft => readTokenize draft rest
      | .refused => none

/-! ## Command lines -/

/-- What the arguments of `help` ask for. -/
def readHelp : List String → Option Request
  | [] => some (.help .program)
  | ["tokenize"] => some (.help .tokenize)
  | ["help"] => some (.help .help)
  | _ => none

/-- **What a command line asks for**, if it is well formed. -/
def Request.ofArguments? : List String → Option Request
  | [] => none
  | command :: rest =>
      if command = "tokenize" then readTokenize .blank rest
      else if command = "help" then readHelp rest
      else if command = "--help" || beginsWith "-h" command then some (.help .program)
      else if command = "--version" || beginsWith "-V" command then some .version
      else none

end LoxLexer
