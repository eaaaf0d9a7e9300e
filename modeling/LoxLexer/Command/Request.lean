/-!
# Requests

What a command line can ask for: to tokenize some files, to print help, or to print the
version.
-/

set_option autoImplicit false

namespace LoxLexer

/-- How tokens are listed. -/
inductive Format where
  | text
  | json
deriving DecidableEq

/-- The name of a format on the command line. -/
def Format.name : Format → String
  | text => "text"
  | json => "json"

/-- The format of a given name. -/
def Format.ofName? (name : String) : Option Format :=
  [text, json].find? fun format => format.name == name

/-- Some files to tokenize. -/
structure Job where
  format : Format
  /-- Whether diagnostics are shown as reports. -/
  pretty : Bool
  files : List String
deriving DecidableEq

/-- What help is about. -/
inductive HelpTopic where
  | program
  | tokenize
  | help
deriving DecidableEq

/-- What a command line asks for. -/
inductive Request where
  | tokenize (job : Job)
  | help (topic : HelpTopic)
  | version
deriving DecidableEq

end LoxLexer
