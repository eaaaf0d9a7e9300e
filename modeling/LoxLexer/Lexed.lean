import LoxLexer.Piece.Located
import LoxLexer.Piece.Reading

/-!
# What a source holds

The tokens and diagnostics of a source text. A source is never refused: what is not a token is
reported, and the tokens around it are found all the same. The last token is the end of the
source, which is empty and stands on the last line.

`Lexed.ofText` says what they are by way of the pieces of the text.
-/

set_option autoImplicit false

namespace LoxLexer

/-- What lexing a source gives. -/
structure Lexed where
  /-- The tokens in the order of the source, the end of the source last. -/
  tokens : List Token
  /-- The faults in the order of the source. -/
  diagnostics : List Diagnostic
deriving DecidableEq

/-- Whether a fault was found. -/
def Lexed.hasErrors (lexed : Lexed) : Bool := Diagnostic.anyError lexed.diagnostics

/-- The end of a source, as a token. -/
def eofToken (stop : Place) : Token :=
  ⟨.eof, "", .absent, clip stop.line, Span.empty (clip stop.offset)⟩

/-- The pieces of a source with their places. -/
def located (source : List Char) : List Located := locate .origin (pieces source)

/-- The tokens and diagnostics of a text, piece by piece. -/
def Lexed.ofText (text : List Char) : Lexed :=
  let items := located text
  { tokens := items.filterMap Located.token? ++ [eofToken (Place.origin.after text)]
    diagnostics := items.filterMap Located.diagnostic? }

end LoxLexer
