import LoxLexer.Number.Layout
import LoxLexer.Position.Span
import LoxLexer.Token.Punctuator

/-!
# Tokens

A `Token` is a piece of source text with what it means: its kind, the value of a string or
number literal, and where it was found. In a listing each token has one line, the name of its
kind, its lexeme and its literal value (`Token.text`).
-/

set_option autoImplicit false

namespace LoxLexer

/-! ## Kinds -/

/-- What a token is. -/
inductive Kind where
  | punctuator (p : Punctuator)
  | string
  | number
  /-- The end of the source. -/
  | eof
deriving DecidableEq

namespace Kind

/-- The name of a kind in listings. -/
def name : Kind → String
  | punctuator p => p.name
  | string => "STRING"
  | number => "NUMBER"
  | eof => "EOF"

/-- All kinds of token. -/
def all : List Kind := Punctuator.all.map punctuator ++ [string, number, eof]

/-- The kind of a given name. -/
def ofName? (name : String) : Option Kind := all.find? fun kind => kind.name == name

/-- A kind is found by its name. -/
theorem ofName_name (kind : Kind) : ofName? kind.name = some kind := by
  cases kind with
  | punctuator p => cases p <;> rfl
  | string => rfl
  | number => rfl
  | eof => rfl

end Kind

/-! ## Literals -/

/-- The value that a token carries. -/
inductive Literal where
  /-- No value, as in a punctuator. -/
  | absent
  | number (value : Binary64)
  | string (value : String)
deriving DecidableEq

/-- The text of a literal: a number as `Binary64.text` writes it, a string as it is. -/
def Literal.text : Literal → String
  | absent => "null"
  | number value => value.text
  | string value => value

/-! ## Tokens -/

/-- A token of a source. -/
structure Token where
  kind : Kind
  /-- The text of the token in the source. -/
  lexeme : String
  literal : Literal
  /-- The line, counted from 1, that was reached at the end of the token. -/
  line : UInt32
  span : Span
deriving DecidableEq

namespace Token

/-- Whether the token is the end of the source. -/
def isEof (t : Token) : Bool := t.kind == .eof

/-- The line of a token in a listing. -/
def text (t : Token) : String := t.kind.name ++ " " ++ t.lexeme ++ " " ++ t.literal.text

end Token

end LoxLexer
