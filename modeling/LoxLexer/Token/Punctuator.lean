/-!
# Punctuators

The nineteen tokens with one fixed spelling: brackets, separators and operators. Each is one
character long, but for the four that add an equals sign to `!`, `=`, `<` and `>`.
-/

set_option autoImplicit false

namespace LoxLexer

/-- A token with a fixed spelling. -/
inductive Punctuator where
  | leftParen
  | rightParen
  | leftBrace
  | rightBrace
  | comma
  | dot
  | minus
  | plus
  | semicolon
  | star
  | slash
  | bang
  | bangEqual
  | equal
  | equalEqual
  | less
  | lessEqual
  | greater
  | greaterEqual
deriving DecidableEq

namespace Punctuator

/-- All punctuators. -/
def all : List Punctuator :=
  [leftParen, rightParen, leftBrace, rightBrace, comma, dot, minus, plus, semicolon, star, slash,
    bang, bangEqual, equal, equalEqual, less, lessEqual, greater, greaterEqual]

/-- How a punctuator is written in a source. -/
def spelling : Punctuator → List Char
  | leftParen => ['(']
  | rightParen => [')']
  | leftBrace => ['\x7b']
  | rightBrace => ['\x7d']
  | comma => [',']
  | dot => ['.']
  | minus => ['-']
  | plus => ['+']
  | semicolon => [';']
  | star => ['*']
  | slash => ['/']
  | bang => ['!']
  | bangEqual => ['!', '=']
  | equal => ['=']
  | equalEqual => ['=', '=']
  | less => ['<']
  | lessEqual => ['<', '=']
  | greater => ['>']
  | greaterEqual => ['>', '=']

/-- The name of a punctuator in listings. -/
def name : Punctuator → String
  | leftParen => "LEFT_PAREN"
  | rightParen => "RIGHT_PAREN"
  | leftBrace => "LEFT_BRACE"
  | rightBrace => "RIGHT_BRACE"
  | comma => "COMMA"
  | dot => "DOT"
  | minus => "MINUS"
  | plus => "PLUS"
  | semicolon => "SEMICOLON"
  | star => "STAR"
  | slash => "SLASH"
  | bang => "BANG"
  | bangEqual => "BANG_EQUAL"
  | equal => "EQUAL"
  | equalEqual => "EQUAL_EQUAL"
  | less => "LESS"
  | lessEqual => "LESS_EQUAL"
  | greater => "GREATER"
  | greaterEqual => "GREATER_EQUAL"

/-- The punctuator that a character is by itself. -/
def ofChar? (c : Char) : Option Punctuator := all.find? fun p => p.spelling == [c]

/-- The punctuator that an equals sign makes of another one. -/
def withEqual? : Punctuator → Option Punctuator
  | bang => some bangEqual
  | equal => some equalEqual
  | less => some lessEqual
  | greater => some greaterEqual
  | _ => none

/-- An equals sign added to a punctuator is added to its spelling. -/
theorem spelling_withEqual {p q : Punctuator} (h : p.withEqual? = some q) :
    q.spelling = p.spelling ++ ['='] := by
  cases p <;> cases h <;> rfl

/-- An equals sign is added once only. -/
theorem withEqual?_withEqual {p q : Punctuator} (h : p.withEqual? = some q) :
    q.withEqual? = none := by
  cases p <;> cases h <;> rfl

/-- A character that is a punctuator is its spelling. -/
theorem spelling_ofChar {c : Char} {p : Punctuator} (h : ofChar? c = some p) :
    p.spelling = [c] := by
  have := List.find?_some h
  simpa using this

theorem ofChar?_eq_none_iff {c : Char} : ofChar? c = none ↔ ∀ p ∈ all, p.spelling ≠ [c] := by
  simp [ofChar?]

theorem isDigit_of_mem_spelling (p : Punctuator) {c : Char} (hc : c ∈ p.spelling) :
    c.isDigit = false := by
  have hall : p.spelling.all (fun d => !d.isDigit) = true := by
    cases p <;> decide
  simpa using List.all_eq_true.mp hall c hc

/-- No punctuator goes on over a line. -/
theorem lineFeed_not_mem_spelling (p : Punctuator) : '\n' ∉ p.spelling := by
  cases p <;> decide

end Punctuator

end LoxLexer
