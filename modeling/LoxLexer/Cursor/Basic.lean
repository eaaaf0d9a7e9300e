import LoxLexer.Diagnostic.Basic
import LoxLexer.Text.Bytes
import LoxLexer.Token.Basic

/-!
# Cursors

A `Cursor` reads a source text from its start to its end. It knows two byte offsets, where the
lexeme that is being read starts and where the next character is, and the line it is on, and it
collects the tokens and diagnostics that it finds.

This file has the steps that all reading is made of: to look at the next character or at the one
behind it, to take a character, and to add a token or a diagnostic. An offset that is not between
two characters makes such a step fail, and so does taking a character where there is none.

The lemmas say what a step does at a cursor that stands in the text `done ++ rest` behind `done`
(`Cursor.At`), and that there it does not fail.
-/

set_option autoImplicit false

namespace LoxLexer

/-! ## Steps that may fail -/

@[simp] theorem ok_bind {α β : Type} (a : α) (f : α → Except Fault β) :
    (Except.ok a >>= f) = f a := rfl

@[simp] theorem error_bind {α β : Type} (fault : Fault) (f : α → Except Fault β) :
    (Except.error fault >>= f) = Except.error fault := rfl

@[simp] theorem pure_eq_ok {α : Type} (a : α) : (pure a : Except Fault α) = Except.ok a := rfl

@[simp] theorem throw_eq_error {α : Type} (fault : Fault) :
    (throw fault : Except Fault α) = Except.error fault := rfl

/-- Steps that went well in turn each went well. -/
theorem of_bind_eq_ok {α β : Type} {x : Except Fault α} {f : α → Except Fault β} {b : β}
    (h : x >>= f = .ok b) : ∃ a, x = .ok a ∧ f a = .ok b := by
  cases x with
  | error fault => cases h
  | ok a => exact ⟨a, rfl, h⟩

/-! ## Definitions -/

/-- A reader of a source text. -/
structure Cursor where
  /-- The byte offset where the lexeme starts that is being read. -/
  start : Nat
  /-- The byte offset of the next character. -/
  current : Nat
  /-- The line, counted from 1. -/
  line : UInt32
  tokens : Array Token
  diagnostics : Array Diagnostic

/-- What a cursor sees behind the end of its text. -/
def sentinel : Char := '\x00'

namespace Cursor

/-- The cursor at the start of a text. -/
def origin : Cursor := ⟨0, 0, 1, #[], #[]⟩

/-- The next character. -/
def peek (c : Cursor) (source : String) : Except Fault Char := do
  let here ← positionAt source c.current
  return (charAt here).getD sentinel

/-- The character behind the next one. -/
def peekBehind (c : Cursor) (source : String) : Except Fault Char := do
  let here ← positionAt source c.current
  return (charBehind here).getD sentinel

/-- Goes past a character. -/
def pass (c : Cursor) (next : Char) : Cursor := { c with current := c.current + next.utf8Size }

/-- Takes the next character. There has to be one. -/
def advance (c : Cursor) (source : String) : Except Fault (Char × Cursor) :=
  if c.current < source.utf8ByteSize then do
    let next ← c.peek source
    return (next, c.pass next)
  else throw .pastEnd

/-- Takes the next character if it is `expected`, and says whether it is. -/
def match? (c : Cursor) (source : String) (expected : Char) : Except Fault (Bool × Cursor) :=
  if c.current < source.utf8ByteSize then do
    let next ← c.peek source
    if next = expected then return (true, c.pass expected) else return (false, c)
  else return (false, c)

/-- Adds line feeds to the count of lines. -/
def addLines (c : Cursor) (count : Nat) : Cursor :=
  { c with line := addClipped c.line (clip count) }

/-- Adds the token that goes from `start` to here. -/
def addToken (c : Cursor) (source : String) (kind : Kind) (literal : Literal) :
    Except Fault Cursor := do
  let lexeme ← slice source c.start c.current
  let span ← Span.ofOffsets c.start c.current
  return { c with tokens := c.tokens.push ⟨kind, lexeme, literal, c.line, span⟩ }

/-- Adds a diagnostic about what goes from `start` to here. -/
def report (c : Cursor) (template : Template) (arguments : List String) : Except Fault Cursor := do
  let span ← Span.ofOffsets c.start c.current
  return { c with diagnostics := c.diagnostics.push (.ofTemplate template arguments c.line span) }

/-! ## Where a cursor stands -/

/-- The cursor stands in the text `done ++ rest`, between the two. -/
structure At (c : Cursor) (source : String) (done rest : List Char) : Prop where
  source_eq : source = String.ofList (done ++ rest)
  current_eq : c.current = byteSize done

variable {c : Cursor} {source : String} {done rest : List Char} {next : Char}

theorem At.pass (h : c.At source done (next :: rest)) :
    (c.pass next).At source (done ++ [next]) rest where
  source_eq := by rw [h.source_eq, List.append_assoc, List.singleton_append]
  current_eq := by simp [Cursor.pass, h.current_eq]

theorem At.current_lt (h : c.At source done (next :: rest)) :
    c.current < source.utf8ByteSize := by
  rw [h.source_eq, h.current_eq, utf8ByteSize_ofList, byteSize_append, byteSize_cons]
  have := next.utf8Size_pos
  omega

theorem At.current_not_lt (h : c.At source done []) : ¬ c.current < source.utf8ByteSize := by
  rw [h.source_eq, h.current_eq, utf8ByteSize_ofList, List.append_nil]
  exact Nat.lt_irrefl _

/-! ## What the steps do -/

theorem peek_eq (h : c.At source done rest) :
    c.peek source = .ok (rest.head?.getD sentinel) := by
  obtain ⟨here, hpos, hsplit⟩ := positionAt_eq h.source_eq
  rw [peek, h.current_eq, hpos, ok_bind, charAt_eq hsplit]
  rfl

theorem peek_of_cons (h : c.At source done (next :: rest)) : c.peek source = .ok next := peek_eq h

theorem peekBehind_eq (h : c.At source done rest) :
    c.peekBehind source = .ok (rest.tail.head?.getD sentinel) := by
  obtain ⟨here, hpos, hsplit⟩ := positionAt_eq h.source_eq
  rw [peekBehind, h.current_eq, hpos, ok_bind, charBehind_eq hsplit]
  rfl

theorem advance_eq (h : c.At source done (next :: rest)) :
    c.advance source = .ok (next, c.pass next) := by
  rw [advance, if_pos h.current_lt, peek_of_cons h]
  rfl

theorem match?_of_head (h : c.At source done (next :: rest)) :
    c.match? source next = .ok (true, c.pass next) := by
  rw [match?, if_pos h.current_lt, peek_of_cons h, ok_bind, if_pos rfl]
  rfl

/-- The sentinel that is seen at the end matches nothing, not even itself. -/
theorem match?_of_not_head (h : c.At source done rest) (hne : rest.head? ≠ some next) :
    c.match? source next = .ok (false, c) := by
  cases rest with
  | nil =>
      rw [match?, if_neg h.current_not_lt]
      rfl
  | cons d rest =>
      have hd : d ≠ next := fun heq => hne (heq ▸ rfl)
      rw [match?, if_pos h.current_lt, peek_of_cons h, ok_bind, if_neg hd]
      rfl

theorem addToken_eq {lexeme : List Char} (kind : Kind) (literal : Literal)
    (hstart : c.start = byteSize done) (h : c.At source (done ++ lexeme) rest) :
    c.addToken source kind literal =
      .ok { c with tokens := c.tokens.push ⟨kind, String.ofList lexeme, literal, c.line,
        Span.covering (byteSize done) (byteSize lexeme)⟩ } := by
  have hspan := Span.ofOffsets_eq_covering (byteSize done) (byteSize lexeme)
  rw [addToken, hstart, h.current_eq, slice_eq h.source_eq, ok_bind, byteSize_append, hspan]
  rfl

theorem report_eq {lexeme : List Char} (template : Template) (arguments : List String)
    (hstart : c.start = byteSize done) (h : c.At source (done ++ lexeme) rest) :
    c.report template arguments =
      .ok { c with diagnostics := c.diagnostics.push (.ofTemplate template arguments c.line
        (Span.covering (byteSize done) (byteSize lexeme))) } := by
  have hspan := Span.ofOffsets_eq_covering (byteSize done) (byteSize lexeme)
  rw [report, hstart, h.current_eq, byteSize_append, hspan]
  rfl

end Cursor

end LoxLexer
