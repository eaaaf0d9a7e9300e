import LoxLexer.Token.Numeral
import LoxLexer.Token.Punctuator

/-!
# Pieces

A source text is a sequence of *pieces*: tokens, the blanks and comments between them, and
the faulty stretches that are reported. A `Piece` says what one of them is and holds exactly
the characters it was made from, so `Piece.text` gives its source back.
-/

set_option autoImplicit false

namespace LoxLexer

/-- The smallest part of a source that is read at once. -/
inductive Piece where
  | punctuator (p : Punctuator)
  /-- A string, of which `body` stands between the quotes. -/
  | string (body : List Char)
  | numeral (n : Numeral)
  /-- A single space, tab, carriage return or line feed. -/
  | blank (c : Char)
  /-- A comment, of which `body` follows the two slashes. The line feed behind it is a piece
  of its own. -/
  | comment (body : List Char)
  /-- A character that begins nothing. -/
  | stray (c : Char)
  /-- A string that the source ends in, of which `body` follows the quote. -/
  | unclosed (body : List Char)
deriving DecidableEq

/-- The characters that a piece is made from. -/
def Piece.text : Piece → List Char
  | punctuator p => p.spelling
  | string body => '"' :: body ++ ['"']
  | numeral n => n.text
  | blank c => [c]
  | comment body => '/' :: '/' :: body
  | stray c => [c]
  | unclosed body => '"' :: body

end LoxLexer
