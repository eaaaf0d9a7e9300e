import LoxLexer.Cursor.Basic
import LoxLexer.Lexed
import LoxLexer.Piece.Class
import LoxLexer.Token.Numeral

/-!
# Scanning

A scan takes a source text apart with a cursor. It looks at one character after the other and
decides by it what begins there, reads that to its end, and goes on behind it.

Comments and strings can be long, and a scan need not look at all that is in them. How it gets
over them is left open here: a `Skipping` has a way to do it.

Each round of a scan goes on by a character at least (`current_lt_of_scanToken`), which is why
a scan ends.
-/

set_option autoImplicit false

namespace LoxLexer

namespace Cursor

/-! ## Numbers -/

/-- Takes the digits that are next. -/
def takeDigits (source : String) (c : Cursor) : Except Fault Cursor := do
  let next ← c.peek source
  if next.isDigit then
    if c.current < source.utf8ByteSize then takeDigits source (c.pass next)
    -- the sentinel is no digit, so a digit is never seen at the end
    else throw .pastEnd
  else return c
termination_by source.utf8ByteSize - c.current
decreasing_by
  have := next.utf8Size_pos
  simp only [pass]
  omega

/-- Whether a point is next and a digit behind it. -/
def seesFraction (source : String) (c : Cursor) : Except Fault Bool := do
  let next ← c.peek source
  if next = '.' then
    let behind ← c.peekBehind source
    return behind.isDigit
  else return false

/-- Takes a point and the digits behind it, if they are next. -/
def takeFraction (source : String) (c : Cursor) : Except Fault Cursor := do
  let fraction ← seesFraction source c
  if fraction then
    let (_, c) ← c.advance source
    takeDigits source c
  else return c

/-- The value of a lexeme, not a number if the lexeme is no numeral. -/
def valueOf (lexeme : String) : Binary64 :=
  match Numeral.ofText? lexeme.toList with
  | some n => n.value
  | none => .nan

/-- Adds the number that goes from `start` to here. -/
def addNumber (source : String) (c : Cursor) : Except Fault Cursor := do
  let lexeme ← slice source c.start c.current
  c.addToken source .number (.number (valueOf lexeme))

/-- Goes on behind a digit, to the end of the number. -/
def scanNumber (source : String) (c : Cursor) : Except Fault Cursor := do
  let c ← takeDigits source c
  let c ← takeFraction source c
  addNumber source c

end Cursor

/-! ## One round -/

/-- How a scan gets over comments and strings. -/
structure Skipping where
  /-- Goes on behind two slashes. -/
  comment : String → Cursor → Except Fault Cursor
  /-- Goes on behind an opening quote, and adds what it finds. -/
  string : String → Cursor → Except Fault Cursor
  comment_le : ∀ {source c next}, comment source c = .ok next → c.current ≤ next.current
  string_le : ∀ {source c next}, string source c = .ok next → c.current ≤ next.current

namespace Cursor

/-- Goes on behind a punctuator: an equals sign may make it longer, and a slash may be the first
of two. -/
def scanPunctuator (skipping : Skipping) (source : String) (p : Punctuator) (c : Cursor) :
    Except Fault Cursor := do
  match p.withEqual? with
  | some q =>
      let (longer, c) ← c.match? source '='
      c.addToken source (.punctuator (if longer then q else p)) .absent
  | none =>
      if p = .slash then
        let (double, c) ← c.match? source '/'
        if double then skipping.comment source c
        else c.addToken source (.punctuator p) .absent
      else c.addToken source (.punctuator p) .absent

/-- Goes on behind the character `first`, which is the first of something. -/
def scanBehind (skipping : Skipping) (source : String) (first : Char) (c : Cursor) :
    Except Fault Cursor :=
  match Opening.ofChar first with
  | .blank => return if first = '\n' then c.addLines 1 else c
  | .quote => skipping.string source c
  | .digit => scanNumber source c
  | .punctuator p => scanPunctuator skipping source p c
  | .nothing => c.report .unexpectedCharacter [String.singleton first]

/-- Reads a token, or something between tokens, from its first character to its end. -/
def scanToken (skipping : Skipping) (source : String) (c : Cursor) : Except Fault Cursor := do
  let (first, c) ← c.advance source
  scanBehind skipping source first c

/-! ## A scan goes on -/

variable {source : String} {c next : Cursor}

theorem current_of_addToken {kind : Kind} {literal : Literal}
    (h : c.addToken source kind literal = .ok next) : next.current = c.current := by
  obtain ⟨lexeme, -, h⟩ := of_bind_eq_ok h
  obtain ⟨span, -, h⟩ := of_bind_eq_ok h
  cases h
  rfl

theorem current_of_report {template : Template} {arguments : List String}
    (h : c.report template arguments = .ok next) : next.current = c.current := by
  obtain ⟨span, -, h⟩ := of_bind_eq_ok h
  cases h
  rfl

theorem current_lt_of_advance {first : Char} (h : c.advance source = .ok (first, next)) :
    c.current < next.current := by
  rw [advance] at h
  split at h
  · obtain ⟨d, -, h⟩ := of_bind_eq_ok h
    cases h
    exact Nat.lt_add_of_pos_right first.utf8Size_pos
  · cases h

theorem current_le_of_match? {expected : Char} {found : Bool}
    (h : c.match? source expected = .ok (found, next)) : c.current ≤ next.current := by
  rw [match?] at h
  split at h
  · obtain ⟨d, -, h⟩ := of_bind_eq_ok h
    split at h
    · cases h
      exact Nat.le_add_right _ _
    · cases h
      exact Nat.le_refl _
  · cases h
    exact Nat.le_refl _

theorem current_le_of_takeDigits {c next : Cursor} (h : takeDigits source c = .ok next) :
    c.current ≤ next.current := by
  rw [takeDigits] at h
  obtain ⟨d, -, h⟩ := of_bind_eq_ok h
  split at h
  · split at h
    · have hpass : c.current < (c.pass d).current := Nat.lt_add_of_pos_right d.utf8Size_pos
      have hrest := current_le_of_takeDigits h
      omega
    · cases h
  · cases h
    exact Nat.le_refl _
termination_by source.utf8ByteSize - c.current

theorem current_le_of_takeFraction (h : takeFraction source c = .ok next) :
    c.current ≤ next.current := by
  obtain ⟨fraction, -, h⟩ := of_bind_eq_ok h
  split at h
  · obtain ⟨⟨point, c'⟩, hadvance, h⟩ := of_bind_eq_ok h
    have hpoint := current_lt_of_advance hadvance
    have hdigits := current_le_of_takeDigits h
    omega
  · cases h
    exact Nat.le_refl _

theorem current_le_of_scanNumber (h : scanNumber source c = .ok next) :
    c.current ≤ next.current := by
  obtain ⟨c₁, hwhole, h⟩ := of_bind_eq_ok h
  obtain ⟨c₂, hfraction, h⟩ := of_bind_eq_ok h
  -- the last step cuts out the lexeme and then adds the token
  obtain ⟨lexeme, -, h⟩ := of_bind_eq_ok (x := slice source c₂.start c₂.current) h
  calc
    c.current ≤ c₁.current := current_le_of_takeDigits hwhole
    _ ≤ c₂.current := current_le_of_takeFraction hfraction
    _ = next.current := (current_of_addToken h).symm

theorem current_le_of_scanPunctuator {skipping : Skipping} {p : Punctuator}
    (h : scanPunctuator skipping source p c = .ok next) : c.current ≤ next.current := by
  rw [scanPunctuator] at h
  split at h
  · obtain ⟨⟨longer, c'⟩, hmatch, h⟩ := of_bind_eq_ok h
    have h₁ := current_le_of_match? hmatch
    have h₂ := current_of_addToken h
    omega
  · split at h
    · obtain ⟨⟨double, c'⟩, hmatch, h⟩ := of_bind_eq_ok h
      have h₁ := current_le_of_match? hmatch
      dsimp only at h
      split at h
      · have h₂ := skipping.comment_le h
        omega
      · have h₂ := current_of_addToken h
        omega
    · exact Nat.le_of_eq (current_of_addToken h).symm

theorem current_le_of_scanBehind {skipping : Skipping} {first : Char}
    (h : scanBehind skipping source first c = .ok next) : c.current ≤ next.current := by
  rw [scanBehind] at h
  split at h
  · cases h
    split <;> exact Nat.le_refl _
  · exact skipping.string_le h
  · exact current_le_of_scanNumber h
  · exact current_le_of_scanPunctuator h
  · exact Nat.le_of_eq (current_of_report h).symm

/-- **A round goes on** by a character at least. -/
theorem current_lt_of_scanToken {skipping : Skipping}
    (h : scanToken skipping source c = .ok next) : c.current < next.current := by
  obtain ⟨⟨first, c'⟩, hadvance, h⟩ := of_bind_eq_ok h
  calc
    c.current < c'.current := current_lt_of_advance hadvance
    _ ≤ next.current := current_le_of_scanBehind h

/-! ## The whole text -/

/-- Reads on to the end of the text. -/
def scanFrom (skipping : Skipping) (source : String) (c : Cursor) : Except Fault Cursor :=
  if c.current < source.utf8ByteSize then
    -- the equation of the round says that the rest of the text is shorter
    match _step : scanToken skipping source { c with start := c.current } with
    | .ok next => scanFrom skipping source next
    | .error fault => .error fault
  else .ok c
termination_by source.utf8ByteSize - c.current
decreasing_by
  have hlt := current_lt_of_scanToken _step
  show source.utf8ByteSize - next.current < source.utf8ByteSize - c.current
  dsimp only at hlt
  omega

/-- What the cursor has found when it is at the end of the text, and the end itself. -/
def finish (source : String) (c : Cursor) : Lexed :=
  let stop : Token := ⟨.eof, "", .absent, c.line, Span.empty (clip source.utf8ByteSize)⟩
  ⟨(c.tokens.push stop).toList, c.diagnostics.toList⟩

/-- **Scans a text** from its start to its end. -/
def scan (skipping : Skipping) (source : String) : Except Fault Lexed := do
  let c ← scanFrom skipping source .origin
  return c.finish source

end Cursor

end LoxLexer
