import LoxLexer.Diagnostic.Basic
import LoxLexer.Position.LineColumn

/-!
# Reports

A `Report` tells of one thing that went wrong: a file that cannot be used, or a diagnostic
with the place in the file that it points at.
-/

set_option autoImplicit false

namespace LoxLexer

/-- A place in a file. -/
structure FilePlace where
  file : String
  position : LineColumn
deriving DecidableEq

/-- The text of a place, `file:line:column`. -/
def FilePlace.text (place : FilePlace) : String := place.file ++ ":" ++ place.position.text

/-- One thing that went wrong. -/
structure Report where
  code : String
  message : String
  place : Option FilePlace
deriving DecidableEq

namespace Report

/-- A file that cannot be read. -/
def unreadable (file : String) : Report :=
  ⟨"lox::io", "failed to read '" ++ file ++ "'", none⟩

/-- A file whose bytes are no text. -/
def notText (file : String) : Report :=
  ⟨"lox::encoding", "'" ++ file ++ "' is not valid UTF-8", none⟩

/-- The code of a diagnostic in reports, with four digits or more. -/
def diagnosticCode (code : UInt32) : String :=
  "lox::E" ++ String.ofList ((Nat.toDigits 10 code.toNat).leftpad 4 '0')

/-- The report of a diagnostic, which points at the start of its span. -/
def ofDiagnostic (file source : String) (d : Diagnostic) : Report :=
  ⟨diagnosticCode d.code, d.text,
    some ⟨file, LineColumn.ofOffset source d.span.start.toNat⟩⟩

end Report

end LoxLexer
