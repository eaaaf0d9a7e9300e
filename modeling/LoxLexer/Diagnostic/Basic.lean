import LoxLexer.Diagnostic.Template
import LoxLexer.Position.Span

/-!
# Diagnostics

A `Diagnostic` says what is wrong with a stretch of the source and on which line. Diagnostics
are kept in lists, in the order in which they were found.
-/

set_option autoImplicit false

namespace LoxLexer

/-- A message about a stretch of the source. -/
structure Diagnostic where
  /-- The line, counted from 1, that was reached when the fault was known. -/
  line : UInt32
  span : Span
  /-- The code of the kind of message. -/
  code : UInt32
  message : String
deriving DecidableEq

namespace Diagnostic

/-- The diagnostic that a template gives with some arguments. -/
def ofTemplate (template : Template) (arguments : List String) (line : UInt32) (span : Span) :
    Diagnostic :=
  ⟨line, span, template.code, template.fill arguments⟩

@[simp] theorem span_ofTemplate (template : Template) (arguments : List String) (line : UInt32)
    (span : Span) : (ofTemplate template arguments line span).span = span := rfl

/-- The one-line text of a diagnostic. -/
def text (d : Diagnostic) : String :=
  "[line " ++ d.line.toNat.repr ++ "] Error: " ++ d.message

/-- Whether some diagnostic is an error. All of them are. -/
def anyError (diagnostics : List Diagnostic) : Bool := !diagnostics.isEmpty

end Diagnostic

end LoxLexer
