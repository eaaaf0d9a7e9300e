import LoxLexer.Json.Basic
import LoxLexer.Lexed

/-!
# Lexed sources in JSON

The JSON form of tokens, diagnostics and what lexing a source gives. It holds all of them but
the spans.
-/

set_option autoImplicit false

namespace LoxLexer

/-- A kind is written as its name. -/
def Kind.json (kind : Kind) : Json := .string kind.name

/-- A literal is written as its bare value. -/
def Literal.json : Literal → Json
  | absent => .null
  | number value => .number value
  | string value => .string value

/-- The JSON form of a token. -/
def Token.json (t : Token) : Json :=
  .object
    [("kind", t.kind.json), ("lexeme", .string t.lexeme), ("literal", t.literal.json),
      ("line", .natural t.line.toNat)]

/-- The JSON form of a diagnostic. -/
def Diagnostic.json (d : Diagnostic) : Json :=
  .object
    [("line", .natural d.line.toNat), ("code", .natural d.code.toNat),
      ("message", .string d.message)]

/-- The JSON form of some diagnostics. -/
def Diagnostic.jsonList (diagnostics : List Diagnostic) : Json :=
  .array (diagnostics.map Diagnostic.json)

/-- The JSON form of what lexing a source gives. -/
def Lexed.json (lexed : Lexed) : Json :=
  .object
    [("tokens", .array (lexed.tokens.map Token.json)),
      ("diagnostics", Diagnostic.jsonList lexed.diagnostics)]

end LoxLexer
