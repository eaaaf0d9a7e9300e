import LoxLexer.Token.Punctuator

/-!
# Character classes

What a character begins where a new piece begins. Digits are the ten of ASCII
(`Char.isDigit`), and no character outside ASCII is blank.
-/

set_option autoImplicit false

namespace LoxLexer

/-- Whether a character is white space within a line: a space, a tab or a carriage return. -/
def isSpacing (c : Char) : Bool := c == ' ' || c == '\t' || c == '\r'

/-- Whether a character is skipped between tokens: white space or a line feed. -/
def isBlank (c : Char) : Bool := isSpacing c || c == '\n'

/-- What a character begins. -/
inductive Opening where
  | blank
  | quote
  | digit
  /-- The character is a punctuator, which what follows may lengthen. -/
  | punctuator (p : Punctuator)
  | nothing
deriving DecidableEq

/-- What `c` begins. -/
def Opening.ofChar (c : Char) : Opening :=
  if isBlank c then .blank
  else if c = '"' then .quote
  else if c.isDigit then .digit
  else
    match Punctuator.ofChar? c with
    | some p => .punctuator p
    | none => .nothing

namespace Opening

variable {c : Char}

theorem isBlank_of_blank (h : ofChar c = .blank) : isBlank c := by
  unfold ofChar at h
  grind

theorem eq_quote (h : ofChar c = .quote) : c = '"' := by
  unfold ofChar at h
  grind

theorem isDigit_of_digit (h : ofChar c = .digit) : c.isDigit := by
  unfold ofChar at h
  grind

theorem ofChar?_of_punctuator {p : Punctuator} (h : ofChar c = .punctuator p) :
    Punctuator.ofChar? c = some p := by
  unfold ofChar at h
  grind

theorem ofChar_of_isBlank (h : isBlank c) : ofChar c = .blank := if_pos h

theorem ofChar_of_isDigit (h : c.isDigit) : ofChar c = .digit := by
  have hblank : ¬ isBlank c := by
    intro hb
    simp only [isBlank, isSpacing, Bool.or_eq_true, beq_iff_eq] at hb
    rcases hb with ((rfl | rfl) | rfl) | rfl <;> exact absurd h (by decide)
  have hquote : c ≠ '"' := by
    rintro rfl
    exact absurd h (by decide)
  rw [ofChar, if_neg hblank, if_neg hquote, if_pos h]

theorem ofChar_eq_nothing_iff :
    ofChar c = .nothing ↔
      isBlank c = false ∧ c ≠ '"' ∧ c.isDigit = false ∧ Punctuator.ofChar? c = none := by
  unfold ofChar
  grind

/-- A punctuator is begun by a character that is one by itself: this one, or one that an equals
sign makes longer. -/
theorem of_spelling (p : Punctuator) :
    (∃ c, p.spelling = [c] ∧ ofChar c = .punctuator p) ∨
      ∃ q c, q.withEqual? = some p ∧ p.spelling = [c, '='] ∧ ofChar c = .punctuator q := by
  cases p with
  | bangEqual => exact Or.inr ⟨.bang, '!', rfl, rfl, rfl⟩
  | equalEqual => exact Or.inr ⟨.equal, '=', rfl, rfl, rfl⟩
  | lessEqual => exact Or.inr ⟨.less, '<', rfl, rfl, rfl⟩
  | greaterEqual => exact Or.inr ⟨.greater, '>', rfl, rfl, rfl⟩
  | _ => exact Or.inl ⟨_, rfl, rfl⟩

end Opening

end LoxLexer
