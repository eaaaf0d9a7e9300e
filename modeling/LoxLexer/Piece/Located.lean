import LoxLexer.Diagnostic.Basic
import LoxLexer.Piece.Basic
import LoxLexer.Position.Place
import LoxLexer.Token.Basic

/-!
# Located pieces

A piece together with the place where it begins. From the two follow the span of the piece
and its line, and hence the token or the diagnostic that it stands for; a blank or a comment
stands for neither.

The line of a piece is the one reached at its end. It differs from the line of its start
only where a string goes on over several lines.
-/

set_option autoImplicit false

namespace LoxLexer

/-- A piece of a source and where it begins. -/
structure Located where
  piece : Piece
  start : Place
deriving DecidableEq

namespace Located

/-! ## Where a piece is -/

/-- The place just behind the piece. -/
def stop (l : Located) : Place := l.start.after l.piece.text

/-- The line reached at the end of the piece. -/
def line (l : Located) : UInt32 := clip l.stop.line

/-- The stretch of the source that the piece covers. -/
def span (l : Located) : Span := Span.covering l.start.offset (byteSize l.piece.text)

/-! ## What a piece stands for -/

/-- A token of the piece's text, line and span. -/
def toToken (l : Located) (kind : Kind) (literal : Literal) : Token :=
  ⟨kind, String.ofList l.piece.text, literal, l.line, l.span⟩

@[simp] theorem span_toToken (l : Located) (kind : Kind) (literal : Literal) :
    (l.toToken kind literal).span = l.span := rfl

/-- The token that the piece is, if it is one. -/
def token? (l : Located) : Option Token :=
  match l.piece with
  | .punctuator p => some (l.toToken (.punctuator p) .absent)
  | .string body => some (l.toToken .string (.string (String.ofList body)))
  | .numeral n => some (l.toToken .number (.number n.value))
  | .blank _ | .comment _ | .stray _ | .unclosed _ => none

/-- The diagnostic that the piece gives rise to, if it is faulty. -/
def diagnostic? (l : Located) : Option Diagnostic :=
  match l.piece with
  | .stray c =>
      some (.ofTemplate .unexpectedCharacter [String.singleton c] l.line l.span)
  | .unclosed _ => some (.ofTemplate .unterminatedString [] l.line l.span)
  | .punctuator _ | .string _ | .numeral _ | .blank _ | .comment _ => none

/-- Whether the piece is passed over: a blank or a comment. -/
def isPassedOver (l : Located) : Bool :=
  match l.piece with
  | .blank _ | .comment _ => true
  | .punctuator _ | .string _ | .numeral _ | .stray _ | .unclosed _ => false

variable {l : Located}

/-- A piece that is a token is one of its own text, line and span, and is not the end. -/
theorem of_token?_eq_some {t : Token} (h : l.token? = some t) :
    ∃ kind literal, kind ≠ .eof ∧ t = l.toToken kind literal := by
  obtain ⟨piece, start⟩ := l
  cases piece with
  | punctuator p =>
      refine ⟨_, _, ?_, (Option.some.inj h).symm⟩
      exact nofun
  | string body =>
      refine ⟨_, _, ?_, (Option.some.inj h).symm⟩
      exact nofun
  | numeral n =>
      refine ⟨_, _, ?_, (Option.some.inj h).symm⟩
      exact nofun
  | _ => cases h

/-- A piece that is faulty is reported with its own line and span. -/
theorem of_diagnostic?_eq_some {d : Diagnostic} (h : l.diagnostic? = some d) :
    ∃ template arguments, d = .ofTemplate template arguments l.line l.span := by
  obtain ⟨piece, start⟩ := l
  cases piece with
  | stray c => exact ⟨_, _, (Option.some.inj h).symm⟩
  | unclosed body => exact ⟨_, _, (Option.some.inj h).symm⟩
  | _ => cases h

/-- A piece is passed over, is a token, or is faulty, and only one of these. -/
theorem passedOver_or_token_or_diagnostic (l : Located) :
    (l.isPassedOver = true ∧ l.token? = none ∧ l.diagnostic? = none) ∨
    (l.isPassedOver = false ∧ (∃ t, l.token? = some t) ∧ l.diagnostic? = none) ∨
    (l.isPassedOver = false ∧ l.token? = none ∧ ∃ d, l.diagnostic? = some d) := by
  obtain ⟨piece, start⟩ := l
  cases piece with
  | blank c => exact Or.inl ⟨rfl, rfl, rfl⟩
  | comment body => exact Or.inl ⟨rfl, rfl, rfl⟩
  | punctuator p => exact Or.inr (Or.inl ⟨rfl, ⟨_, rfl⟩, rfl⟩)
  | string body => exact Or.inr (Or.inl ⟨rfl, ⟨_, rfl⟩, rfl⟩)
  | numeral n => exact Or.inr (Or.inl ⟨rfl, ⟨_, rfl⟩, rfl⟩)
  | stray c => exact Or.inr (Or.inr ⟨rfl, rfl, _, rfl⟩)
  | unclosed body => exact Or.inr (Or.inr ⟨rfl, rfl, _, rfl⟩)

end Located

/-! ## Locating the pieces of a source -/

/-- Adds the pieces to `found`, the first of them beginning at `place`. -/
def collectLocated (found : Array Located) (place : Place) : List Piece → Array Located
  | [] => found
  | piece :: rest => collectLocated (found.push ⟨piece, place⟩) (place.after piece.text) rest

/-- Pieces that follow each other from `place` on, with the place of each. -/
def locate (place : Place) (pieces : List Piece) : List Located :=
  (collectLocated #[] place pieces).toList

theorem collectLocated_eq (found : Array Located) (place : Place) (pieces : List Piece) :
    (collectLocated found place pieces).toList = found.toList ++ locate place pieces := by
  induction pieces generalizing found place with
  | nil => simp [collectLocated, locate]
  | cons piece rest ih =>
      rw [locate, collectLocated, collectLocated, ih, ih]
      simp

@[simp] theorem locate_nil (place : Place) : locate place [] = [] := by
  simp [locate, collectLocated]

/-- Each piece begins where the one before it ends. -/
@[simp] theorem locate_cons (place : Place) (piece : Piece) (rest : List Piece) :
    locate place (piece :: rest) = ⟨piece, place⟩ :: locate (place.after piece.text) rest := by
  rw [locate, collectLocated, collectLocated_eq]
  simp

theorem piece_mem_of_mem_locate {l : Located} {place : Place} {pieces : List Piece}
    (h : l ∈ locate place pieces) : l.piece ∈ pieces := by
  induction pieces generalizing place with
  | nil =>
      rw [locate_nil] at h
      cases h
  | cons piece pieces ih =>
      rw [locate_cons] at h
      rcases List.mem_cons.mp h with rfl | hlater
      · exact List.mem_cons_self ..
      · exact List.mem_cons_of_mem piece (ih hlater)

/-- Locating pieces adds their places and nothing else. -/
theorem map_piece_locate (place : Place) (pieces : List Piece) :
    (locate place pieces).map Located.piece = pieces := by
  induction pieces generalizing place with
  | nil => simp
  | cons piece pieces ih => rw [locate_cons, List.map_cons, ih]

theorem locate_append (place : Place) (s t : List Piece) :
    locate place (s ++ t) = locate place s ++ locate (place.after (s.flatMap Piece.text)) t := by
  induction s generalizing place with
  | nil => simp
  | cons piece s ih =>
      rw [List.cons_append, locate_cons, locate_cons, ih, List.flatMap_cons, Place.after_append]
      rfl

end LoxLexer
