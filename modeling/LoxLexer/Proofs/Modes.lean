import LoxLexer.Proofs.Places

/-!
# Reading character by character

An automaton with four modes goes over a text one character at a time and says how each character
is read: as code, as part of a string or as part of a comment. Behind a slash it waits for the
character that tells whether a comment begins.

The diagnostics of a source can be read off the automaton (`lex_diagnostics`): each character that
is read as code and has no meaning there is unexpected, and the string that the automaton is in
when it ends is unterminated.

The automaton knows nothing of tokens. That it agrees with the lexer is shown piece by piece:
between two pieces it reads code, or it is behind a slash or a comment that has just ended
(`Mode.Between`), and a piece leads from such a mode to another (`read_piece`,
`between_modeBehind`).
-/

set_option autoImplicit false

namespace LoxLexer

/-! ## The automaton -/

/-- How the next character is read. -/
inductive Mode where
  | code
  /-- Behind a slash that was read as code. -/
  | slash
  | string
  | comment
deriving DecidableEq

namespace Mode

/-- The mode behind a character that is read as code. -/
def ofCode (c : Char) : Mode := if c = '"' then string else if c = '/' then slash else code

/-- The mode behind a character. -/
def next : Mode → Char → Mode
  | code, c => ofCode c
  | slash, c => if c = '/' then comment else ofCode c
  | string, c => if c = '"' then code else string
  | comment, c => if c = '\n' then code else comment

/-- Whether a character is read as code. -/
def readsAsCode : Mode → Char → Bool
  | code, _ => true
  | slash, c => c != '/'
  | string, _ => false
  | comment, _ => false

end Mode

/-- The mode behind a text. -/
def endMode (mode : Mode) (text : List Char) : Mode := text.foldl Mode.next mode

/-- A character of a text, with the text before it. -/
structure Reading where
  before : List Char
  char : Char

/-- The characters of a text behind `before` that are read as code. -/
def codeReadings (mode : Mode) (before : List Char) : List Char → List Reading
  | [] => []
  | c :: rest =>
      let later := codeReadings (mode.next c) (before ++ [c]) rest
      if mode.readsAsCode c then ⟨before, c⟩ :: later else later

/-! ## What has to be reported -/

/-- The characters other than digits that have a meaning in code. -/
def codeCharacters : List Char :=
  ['(', ')', '\x7b', '\x7d', ',', '.', '-', '+', ';', '*', '!', '=', '<', '>', '/', '"', ' ',
    '\t', '\r', '\n']

/-- Whether a character that is read as code has no meaning there. -/
def Reading.isStray (r : Reading) : Bool := !(r.char.isDigit || codeCharacters.contains r.char)

/-- Whether a character is a quote. -/
def Reading.isQuote (r : Reading) : Bool := r.char == '"'

/-- What is said about a character without a meaning. -/
def Reading.unexpected (r : Reading) : Diagnostic where
  line := UInt32.ofNat (1 + r.before.count '\n')
  span := ⟨UInt32.ofNat (byteSize r.before), UInt32.ofNat r.char.utf8Size⟩
  code := 1001
  message := "Unexpected character: " ++ String.singleton r.char

/-- What is said about the string that a quote opens, if the text ends in it. -/
def Reading.unterminated (text : List Char) (quote : Reading) : Diagnostic where
  line := UInt32.ofNat (1 + text.count '\n')
  span := ⟨UInt32.ofNat (byteSize quote.before),
    UInt32.ofNat (byteSize text - byteSize quote.before)⟩
  code := 1002
  message := "Unterminated string."

/-- The characters of a text that are read as code and have no meaning there. -/
def strays (text : List Char) : List Reading :=
  (codeReadings .code [] text).filter Reading.isStray

/-- The last quote that is read as code. -/
def lastQuote? (text : List Char) : Option Reading :=
  ((codeReadings .code [] text).filter Reading.isQuote).getLast?

/-! ## Runs of the automaton -/

variable {mode : Mode} {before text rest : List Char} {c : Char} {piece : Piece}

theorem endMode_append (mode : Mode) (s t : List Char) :
    endMode mode (s ++ t) = endMode (endMode mode s) t := List.foldl_append

theorem codeReadings_append (mode : Mode) (before s t : List Char) :
    codeReadings mode before (s ++ t) =
      codeReadings mode before s ++ codeReadings (endMode mode s) (before ++ s) t := by
  induction s generalizing mode before with
  | nil => simp [codeReadings, endMode]
  | cons c s ih =>
      have hlater := ih (mode.next c) (before ++ [c])
      rw [List.append_assoc, List.singleton_append] at hlater
      rw [List.cons_append, codeReadings, codeReadings, hlater]
      split
      · rfl
      · rfl

/-- A text without quotes and slashes is read as code from its start to its end. -/
theorem endMode_of_plain (hplain : ∀ c ∈ text, c ≠ '"' ∧ c ≠ '/') :
    endMode .code text = .code := by
  induction text with
  | nil => rfl
  | cons c text ih =>
      obtain ⟨hquote, hslash⟩ := hplain c (List.mem_cons_self ..)
      have hnext : Mode.next .code c = .code := by
        rw [Mode.next, Mode.ofCode, if_neg hquote, if_neg hslash]
      show endMode (Mode.next .code c) text = .code
      rw [hnext]
      exact ih fun d hd => hplain d (List.mem_cons_of_mem c hd)

/-- Within a string nothing is read as code. -/
theorem string_body (before : List Char) (hbody : '"' ∉ text) :
    endMode .string text = .string ∧ codeReadings .string before text = [] := by
  induction text generalizing before with
  | nil => exact ⟨rfl, rfl⟩
  | cons c text ih =>
      have hc : c ≠ '"' := fun heq => hbody (heq ▸ List.mem_cons_self ..)
      have hnext : Mode.next .string c = .string := if_neg hc
      obtain ⟨hmode, hnone⟩ := ih (before ++ [c]) fun hmem => hbody (List.mem_cons_of_mem c hmem)
      constructor
      · show endMode (Mode.next .string c) text = .string
        rw [hnext, hmode]
      · rw [codeReadings, hnext, hnone]
        rfl

/-- Nor within a comment. -/
theorem comment_body (before : List Char) (hbody : '\n' ∉ text) :
    endMode .comment text = .comment ∧ codeReadings .comment before text = [] := by
  induction text generalizing before with
  | nil => exact ⟨rfl, rfl⟩
  | cons c text ih =>
      have hc : c ≠ '\n' := fun heq => hbody (heq ▸ List.mem_cons_self ..)
      have hnext : Mode.next .comment c = .comment := if_neg hc
      obtain ⟨hmode, hnone⟩ := ih (before ++ [c]) fun hmem => hbody (List.mem_cons_of_mem c hmem)
      constructor
      · show endMode (Mode.next .comment c) text = .comment
        rw [hnext, hmode]
      · rw [codeReadings, hnext, hnone]
        rfl

/-- The characters read as code are characters of the text. -/
theorem char_mem_of_mem_codeReadings {r : Reading} (h : r ∈ codeReadings mode before text) :
    r.char ∈ text := by
  induction text generalizing mode before with
  | nil => cases h
  | cons c text ih =>
      rw [codeReadings] at h
      split at h
      · rcases List.mem_cons.mp h with rfl | hlater
        · exact List.mem_cons_self ..
        · exact List.mem_cons_of_mem c (ih hlater)
      · exact List.mem_cons_of_mem c (ih h)

/-! ## Between two pieces -/

/-- **The modes between two pieces**: behind a slash there is no other, and behind a comment there
is a line feed or nothing. -/
def Mode.Between (rest : List Char) : Mode → Prop
  | code => True
  | slash => rest.head? ≠ some '/'
  | comment => Halts (· != '\n') rest
  | string => False

/-- The mode behind a piece. -/
def Piece.modeBehind : Piece → Mode
  | punctuator p => if p = .slash then .slash else .code
  | comment _ => .comment
  | unclosed _ => .string
  | string _ | numeral _ | blank _ | stray _ => .code

/-- The stray character that a piece is, if it is one. -/
def Piece.strays (before : List Char) : Piece → List Reading
  | stray c => [⟨before, c⟩]
  | punctuator _ | string _ | numeral _ | blank _ | comment _ | unclosed _ => []

/-- A character has no meaning in code just if it begins nothing. -/
theorem isStray_iff (r : Reading) : r.isStray = true ↔ Opening.ofChar r.char = .nothing := by
  obtain ⟨before, c⟩ := r
  rw [Opening.ofChar_eq_nothing_iff, Punctuator.ofChar?_eq_none_iff]
  -- both sides go through the same characters
  simp [Reading.isStray, codeCharacters, isBlank, isSpacing, Punctuator.all, Punctuator.spelling]
  grind

theorem plain_of_opening {opening : Opening} (h : Opening.ofChar c = opening)
    (hquote : opening ≠ .quote) (hslash : opening ≠ .punctuator .slash) : c ≠ '"' ∧ c ≠ '/' := by
  constructor
  · rintro rfl
    exact hquote h.symm
  · rintro rfl
    exact hslash h.symm

/-- Where each character begins something, there is no stray one. -/
theorem strays_eq_nil (mode : Mode) (before : List Char)
    (hmeaning : ∀ c ∈ text, Opening.ofChar c ≠ .nothing) :
    (codeReadings mode before text).filter Reading.isStray = [] := by
  apply List.filter_eq_nil_iff.mpr
  intro r hr hstray
  exact hmeaning r.char (char_mem_of_mem_codeReadings hr) ((isStray_iff r).mp hstray)

/-- The mode behind a piece that is read from code on. -/
theorem endMode_code_text (hfits : piece.Fits rest) :
    endMode .code piece.text = piece.modeBehind := by
  cases piece with
  | punctuator p => cases p <;> rfl
  | string body =>
      calc
        endMode .code (Piece.text (.string body))
          = endMode .string (body ++ ['"']) := rfl
        _ = endMode .string ['"'] := by rw [endMode_append, (string_body [] hfits).1]
        _ = .code := rfl
  | numeral n =>
      refine endMode_of_plain fun d hd => ?_
      rcases hfits.wellFormed.isDigit_or_point hd with hdigit | rfl
      · exact plain_of_opening (Opening.ofChar_of_isDigit hdigit) (by decide) (by decide)
      · decide
  | blank c =>
      refine endMode_of_plain fun d hd => ?_
      rw [List.mem_singleton.mp hd]
      exact plain_of_opening (Opening.ofChar_of_isBlank hfits) (by decide) (by decide)
  | comment body => exact (comment_body [] hfits.1).1
  | stray c =>
      refine endMode_of_plain fun d hd => ?_
      rw [List.mem_singleton.mp hd]
      exact plain_of_opening hfits (by decide) (by decide)
  | unclosed body => exact (string_body [] hfits.1).1

/-- The stray characters of a piece that is read from code on. -/
theorem strays_code_text (before : List Char) (hfits : piece.Fits rest) :
    (codeReadings .code before piece.text).filter Reading.isStray = piece.strays before := by
  cases piece with
  | punctuator p => cases p <;> rfl
  | string body =>
      have hreadings : codeReadings .code before (Piece.text (.string body)) = [⟨before, '"'⟩] := by
        obtain ⟨hmode, hnone⟩ := string_body (before ++ ['"']) hfits
        calc
          codeReadings .code before (Piece.text (.string body))
            = ⟨before, '"'⟩ :: codeReadings .string (before ++ ['"']) (body ++ ['"']) := rfl
          _ = ⟨before, '"'⟩ :: ([] ++ codeReadings .string (before ++ ['"'] ++ body) ['"']) := by
              rw [codeReadings_append, hmode, hnone]
          _ = [⟨before, '"'⟩] := rfl
      rw [hreadings]
      rfl
  | numeral n =>
      refine strays_eq_nil .code before fun c hc => ?_
      rcases hfits.wellFormed.isDigit_or_point hc with hdigit | rfl
      · rw [Opening.ofChar_of_isDigit hdigit]
        decide
      · decide
  | blank c =>
      refine strays_eq_nil .code before fun d hd => ?_
      rw [List.mem_singleton.mp hd, Opening.ofChar_of_isBlank hfits]
      decide
  | comment body =>
      have hreadings : codeReadings .code before (Piece.text (.comment body)) =
          [⟨before, '/'⟩] := by
        show _ :: codeReadings .comment (before ++ ['/'] ++ ['/']) body = _
        rw [(comment_body _ hfits.1).2]
      rw [hreadings]
      rfl
  | stray c =>
      have hstray : Reading.isStray ⟨before, c⟩ = true := (isStray_iff _).mpr hfits
      show List.filter Reading.isStray [⟨before, c⟩] = [⟨before, c⟩]
      rw [List.filter_cons_of_pos hstray]
      rfl
  | unclosed body =>
      show List.filter Reading.isStray (_ :: codeReadings .string (before ++ ['"']) body) = []
      rw [(string_body _ hfits.1).2]
      rfl

/-- Behind a slash with no other behind it, a text is read as from code on. -/
theorem slash_of_head (before : List Char) (hne : text ≠ []) (hhead : text.head? ≠ some '/') :
    endMode .slash text = endMode .code text ∧
      codeReadings .slash before text = codeReadings .code before text := by
  cases text with
  | nil => exact absurd rfl hne
  | cons c text =>
      have hc : c ≠ '/' := fun heq => hhead (heq ▸ rfl)
      have hnext : Mode.next .slash c = Mode.next .code c := if_neg hc
      have hreads : Mode.readsAsCode .slash c = true := by
        simpa [Mode.readsAsCode] using hc
      constructor
      · show endMode (Mode.next .slash c) text = endMode (Mode.next .code c) text
        rw [hnext]
      · rw [codeReadings, codeReadings, hnext, if_pos hreads]
        rfl

/-- Behind a comment there is a line feed, if anything. -/
theorem eq_blank_of_halts (hfits : piece.Fits rest)
    (hhalts : Halts (· != '\n') (piece.text ++ rest)) : piece = .blank '\n' := by
  obtain ⟨c, more, htext, hnext⟩ := nextPiece_of_fits hfits
  rw [htext] at hhalts
  have hfeed : c = '\n' := by simpa using hhalts c rfl
  rw [hfeed] at hnext
  exact (congrArg Prod.fst hnext).symm

/-- **A piece leads from a mode between two pieces to its own mode**, and the automaton finds the
same stray characters in it as the lexer. -/
theorem read_piece (before : List Char) (hmode : mode.Between (piece.text ++ rest))
    (hfits : piece.Fits rest) :
    endMode mode piece.text = piece.modeBehind ∧
      (codeReadings mode before piece.text).filter Reading.isStray = piece.strays before := by
  cases mode with
  | code => exact ⟨endMode_code_text hfits, strays_code_text before hfits⟩
  | slash =>
      have hne := hfits.text_ne_nil
      have hhead : piece.text.head? ≠ some '/' := by
        intro h
        obtain ⟨more, htext⟩ := List.head?_eq_some_iff.mp h
        exact hmode (by rw [htext]; rfl)
      obtain ⟨hend, hreadings⟩ := slash_of_head before hne hhead
      rw [hend, hreadings]
      exact ⟨endMode_code_text hfits, strays_code_text before hfits⟩
  | comment =>
      rw [eq_blank_of_halts hfits hmode]
      exact ⟨rfl, rfl⟩
  | string => exact hmode.elim

/-- The first quote of an unclosed string is the only one in it that is read as code. -/
theorem quotes_of_unclosed (before : List Char) {body : List Char} (hbody : '"' ∉ body)
    (hmode : mode.Between ('"' :: body)) :
    (codeReadings mode before ('"' :: body)).filter Reading.isQuote = [⟨before, '"'⟩] := by
  have hcode : (codeReadings .code before ('"' :: body)).filter Reading.isQuote =
      [⟨before, '"'⟩] := by
    show List.filter Reading.isQuote (_ :: codeReadings .string (before ++ ['"']) body) = _
    rw [(string_body _ hbody).2]
    rfl
  cases mode with
  | code => exact hcode
  | slash =>
      rw [(slash_of_head before (List.cons_ne_nil _ _) hmode).2]
      exact hcode
  | comment => exact absurd (hmode '"' rfl) (by decide)
  | string => exact hmode.elim

theorem between_modeBehind (hfits : piece.Fits rest) (hclosed : ∀ body, piece ≠ .unclosed body) :
    piece.modeBehind.Between rest := by
  cases piece with
  | punctuator p =>
      by_cases hp : p = .slash
      · rw [Piece.modeBehind, if_pos hp]
        exact hfits.2 hp
      · rw [Piece.modeBehind, if_neg hp]
        trivial
  | comment body => exact hfits.2
  | unclosed body => exact absurd rfl (hclosed body)
  | _ => trivial

/-! ## What the lexer reports -/

/-- The line of a piece in a text that fits in 32 bits. -/
theorem line_of_fitting (piece : Piece) (hsize : byteSize (before ++ piece.text) < 2 ^ 32 - 1) :
    Located.line ⟨piece, Place.origin.after before⟩ =
      UInt32.ofNat (1 + (before ++ piece.text).count '\n') := by
  have hcount := count_lineFeed_le (before ++ piece.text)
  rw [line_after]
  apply clip_eq_ofNat
  omega

theorem diagnostic?_stray (hfits : Opening.ofChar c = .nothing)
    (hsize : byteSize (before ++ [c]) < 2 ^ 32 - 1) :
    Located.diagnostic? ⟨.stray c, Place.origin.after before⟩ =
      some (Reading.unexpected ⟨before, c⟩) := by
  have hne : c ≠ '\n' := by
    rintro rfl
    cases hfits
  have hcount : (before ++ (Piece.stray c).text).count '\n' = before.count '\n' := by
    rw [List.count_append, Piece.text, List.count_singleton, if_neg (by simpa using hne),
      Nat.add_zero]
  have hline := line_of_fitting (.stray c) hsize
  have hspan := span_after (.stray c) (Nat.le_of_lt hsize)
  rw [hcount] at hline
  show some (Diagnostic.ofTemplate .unexpectedCharacter [String.singleton c] _ _) = _
  rw [Diagnostic.ofTemplate, Template.fill_unexpectedCharacter, hline, hspan]
  rfl

theorem diagnostic?_unclosed {body : List Char}
    (hsize : byteSize (before ++ '"' :: body) < 2 ^ 32 - 1) :
    Located.diagnostic? ⟨.unclosed body, Place.origin.after before⟩ =
      some (Reading.unterminated (before ++ '"' :: body) ⟨before, '"'⟩) := by
  have hlength : byteSize (before ++ '"' :: body) - byteSize before = byteSize ('"' :: body) := by
    rw [byteSize_append, Nat.add_sub_cancel_left]
  have hline := line_of_fitting (.unclosed body) hsize
  have hspan := span_after (.unclosed body) (Nat.le_of_lt hsize)
  show some (Diagnostic.ofTemplate .unterminatedString [] _ _) = _
  rw [Diagnostic.ofTemplate, Template.fill_unterminatedString, hline, hspan, Reading.unterminated,
    hlength]
  rfl

/-- What has to be reported about a text behind `before`, when its first character is read in
`mode`. -/
def reportsFrom (mode : Mode) (before text : List Char) : List Diagnostic :=
  let readings := codeReadings mode before text
  (readings.filter Reading.isStray).map Reading.unexpected ++
    if endMode mode text = .string then
      (readings.filter Reading.isQuote).getLast?.toList.map (Reading.unterminated (before ++ text))
    else []

/-- About an unclosed string one thing has to be reported. -/
theorem reportsFrom_unclosed {body : List Char} (hbody : '"' ∉ body)
    (hmode : mode.Between ('"' :: body)) :
    endMode mode ('"' :: body) = .string ∧
      reportsFrom mode before ('"' :: body) =
        [Reading.unterminated (before ++ '"' :: body) ⟨before, '"'⟩] := by
  have hbetween : mode.Between ((Piece.unclosed body).text ++ []) := by
    rwa [List.append_nil]
  obtain ⟨hend, hstrays⟩ : endMode mode ('"' :: body) = .string ∧
      (codeReadings mode before ('"' :: body)).filter Reading.isStray = [] :=
    read_piece before hbetween ⟨hbody, rfl⟩
  refine ⟨hend, ?_⟩
  rw [reportsFrom, hstrays, if_pos hend, quotes_of_unclosed before hbody hmode]
  rfl

/-- In front of more text, a piece adds the stray character that it is. -/
theorem reportsFrom_append (hmode : mode.Between (piece.text ++ rest)) (hfits : piece.Fits rest)
    (hquote : endMode piece.modeBehind rest = .string →
      ∃ quote, ((codeReadings piece.modeBehind (before ++ piece.text) rest).filter
        Reading.isQuote).getLast? = some quote) :
    reportsFrom mode before (piece.text ++ rest) =
      (piece.strays before).map Reading.unexpected ++
        reportsFrom piece.modeBehind (before ++ piece.text) rest := by
  obtain ⟨hend, hstrays⟩ := read_piece before hmode hfits
  rw [reportsFrom, reportsFrom, codeReadings_append, endMode_append, hend, List.filter_append,
    hstrays, List.map_append, List.append_assoc, List.append_assoc before]
  -- if the automaton ends in a string, its last quote is behind this piece
  by_cases hstring : endMode piece.modeBehind rest = .string
  · obtain ⟨quote, hquote⟩ := hquote hstring
    rw [if_pos hstring, if_pos hstring, List.filter_append, List.getLast?_append, hquote]
    rfl
  · rw [if_neg hstring, if_neg hstring]

/-- **The pieces of a text are reported as the automaton says**, and if it ends in a string, it has
read the quote that opens the string. -/
theorem diagnostics_locate (text : List Char) :
    ∀ (before : List Char) (mode : Mode), mode.Between text →
      byteSize (before ++ text) < 2 ^ 32 - 1 →
      (locate (Place.origin.after before) (pieces text)).filterMap Located.diagnostic? =
          reportsFrom mode before text ∧
        (endMode mode text = .string →
          ∃ quote, ((codeReadings mode before text).filter Reading.isQuote).getLast? =
            some quote) := by
  induction text using text_induction with
  | nil =>
      intro before mode hmode hsize
      rw [pieces_nil, locate_nil]
      cases mode with
      | string => exact hmode.elim
      | _ => exact ⟨rfl, nofun⟩
  | piece piece rest hfits ih =>
      intro before mode hmode hsize
      obtain ⟨hend, hstrays⟩ := read_piece before hmode hfits
      rw [pieces_append hfits, locate_cons]
      by_cases hunclosed : ∃ body, piece = .unclosed body
      · -- the text ends here, in a string
        obtain ⟨body, rfl⟩ := hunclosed
        obtain ⟨hbody, rfl⟩ := hfits
        rw [List.append_nil] at hmode hsize ⊢
        constructor
        · show List.filterMap Located.diagnostic? (_ :: locate _ (pieces [])) =
            reportsFrom mode before ('"' :: body)
          rw [(reportsFrom_unclosed hbody hmode).2, pieces_nil, locate_nil, List.filterMap_cons,
            diagnostic?_unclosed hsize]
          rfl
        · intro _
          refine ⟨⟨before, '"'⟩, ?_⟩
          show (List.filter Reading.isQuote (codeReadings mode before ('"' :: body))).getLast? = _
          rw [quotes_of_unclosed before hbody hmode]
          rfl
      · have hclosed : ∀ body, piece ≠ .unclosed body := fun body heq => hunclosed ⟨body, heq⟩
        rw [← List.append_assoc] at hsize
        obtain ⟨hrest, hquote⟩ := ih (before ++ piece.text) piece.modeBehind
          (between_modeBehind hfits hclosed) hsize
        rw [Place.after_append] at hrest
        constructor
        · rw [reportsFrom_append hmode hfits hquote, List.filterMap_cons, hrest]
          cases piece with
          | stray c =>
              rw [byteSize_append] at hsize
              rw [diagnostic?_stray hfits (Nat.lt_of_le_of_lt (Nat.le_add_right _ _) hsize)]
              rfl
          | unclosed body => exact absurd rfl (hclosed body)
          | _ => rfl
        · intro hstring
          rw [endMode_append, hend] at hstring
          obtain ⟨quote, hlast⟩ := hquote hstring
          refine ⟨quote, ?_⟩
          rw [codeReadings_append, hend, List.filter_append, List.getLast?_append, hlast]
          rfl

/-- **The diagnostics of a source** are those of its stray characters, and that of an unterminated
string just if the automaton ends in a string. -/
theorem lex_diagnostics (source : String) (hsize : source.utf8ByteSize < 2 ^ 32 - 1) :
    let text := source.toList
    (lex source).diagnostics =
        (strays text).map Reading.unexpected ++
          (if endMode .code text = .string then
            (lastQuote? text).toList.map (Reading.unterminated text) else []) ∧
      (endMode .code text = .string → (lastQuote? text).isSome) ∧
      ((lex source).hasErrors = false ↔ strays text = [] ∧ endMode .code text ≠ .string) := by
  intro text
  have hbytes : byteSize ([] ++ text) < 2 ^ 32 - 1 := by
    rwa [List.nil_append, byteSize_toList]
  obtain ⟨hdiagnostics, hquote⟩ := diagnostics_locate text [] .code trivial hbytes
  have hlex : (lex source).diagnostics = reportsFrom .code [] text := by
    rw [lex_eq]
    exact hdiagnostics
  have hsome : endMode .code text = .string → ∃ quote, lastQuote? text = some quote := hquote
  refine ⟨hlex, fun hstring => Option.isSome_iff_exists.mpr (hsome hstring), ?_⟩
  rw [Lexed.hasErrors, Diagnostic.anyError, hlex]
  show (!((strays text).map Reading.unexpected ++
    if endMode .code text = .string then
      (lastQuote? text).toList.map (Reading.unterminated text) else []).isEmpty) = false ↔ _
  by_cases hstring : endMode .code text = .string
  · obtain ⟨quote, hlast⟩ := hsome hstring
    simp [hstring, hlast]
  · simp [hstring]

/-- A stray character, one in a comment, and a string that is not closed. -/
theorem diagnostics_mixed :
    "@/ //@\n\"@".utf8ByteSize < 2 ^ 32 - 1 ∧
      (lex "@/ //@\n\"@").diagnostics =
        [⟨1, ⟨0, 1⟩, 1001, "Unexpected character: @"⟩, ⟨2, ⟨7, 2⟩, 1002, "Unterminated string."⟩] := by
  have hsize : "@/ //@\n\"@".utf8ByteSize < 2 ^ 32 - 1 := by decide
  refine ⟨hsize, ?_⟩
  rw [(lex_diagnostics _ hsize).1]
  decide

end LoxLexer
