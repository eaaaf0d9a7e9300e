import Mathlib.Data.List.Basic
import LoxLexer.Proofs.Places

/-!
# Texts made of lexemes

A text may be put together from lexemes and the layout between them. If no two neighbours run into
each other (`Entry.Separated`), lexing such a text finds exactly the lexemes it was made of, each
where it was put, and nothing to report (`lex_arrangement`).

For each lexeme it is to be shown that it fits in front of what follows it (`Entry.fits`). What
follows begins with a blank, with a comment or with the next lexeme (`head_textBehind`), and the
last is possible only where there is no layout between.
-/

set_option autoImplicit false

namespace LoxLexer

/-! ## Lexemes and layout -/

/-- A lexeme of the language. -/
inductive Lexeme where
  | punctuator (p : Punctuator)
  | numeral (n : Numeral) (wellFormed : n.WellFormed)
  /-- A string, of which `body` stands between the quotes. -/
  | string (body : List Char) (closed : '"' ∉ body)

namespace Lexeme

/-- The piece that a lexeme is. -/
def piece : Lexeme → Piece
  | punctuator p => .punctuator p
  | numeral n _ => .numeral n
  | string body _ => .string body

/-- How a lexeme is written. -/
def text (w : Lexeme) : List Char := w.piece.text

def kind : Lexeme → Kind
  | punctuator p => .punctuator p
  | numeral _ _ => .number
  | string _ _ => .string

def literal : Lexeme → Literal
  | punctuator _ => .absent
  | numeral n _ => .number n.value
  | string body _ => .string (String.ofList body)

def isNumber : Lexeme → Bool
  | numeral _ _ => true
  | punctuator _ | string _ _ => false

def isInteger : Lexeme → Bool
  | numeral n _ => n.fraction.isNone
  | punctuator _ | string _ _ => false

/-- Whether an equals sign would become part of the lexeme. -/
def takesEqual (w : Lexeme) : Bool := [['!'], ['='], ['<'], ['>']].contains w.text

end Lexeme

/-- A unit of layout. -/
inductive Space where
  | blank (c : Char) (isBlank : isBlank c)
  /-- A comment with the line feed that ends it. -/
  | comment (body : List Char) (oneLine : '\n' ∉ body)

namespace Space

def pieces : Space → List Piece
  | blank c _ => [.blank c]
  | comment body _ => [.comment body, .blank '\n']

def text (s : Space) : List Char := s.pieces.flatMap Piece.text

def isComment : Space → Bool
  | blank _ _ => false
  | comment _ _ => true

end Space

/-- The text of some layout. -/
def layoutText (layout : List Space) : List Char := layout.flatMap Space.text

/-! ## Arrangements -/

/-- A lexeme and the layout behind it. -/
structure Entry where
  lexeme : Lexeme
  layout : List Space

/-- A comment that the text ends in. -/
structure LastComment where
  body : List Char
  oneLine : '\n' ∉ body

def LastComment.text (comment : LastComment) : List Char := '/' :: '/' :: comment.body

/-- A text made of layout, lexemes with layout behind each, and a comment that the text may end
in. -/
structure Arrangement where
  lead : List Space
  entries : List Entry
  last : Option LastComment

/-- The text of some entries and of the last comment. -/
def entriesText (last : Option LastComment) : List Entry → List Char
  | [] => (last.map LastComment.text).getD []
  | e :: later => e.lexeme.text ++ (layoutText e.layout ++ entriesText last later)

def Arrangement.text (a : Arrangement) : List Char :=
  layoutText a.lead ++ entriesText a.last a.entries

/-- The text behind the lexeme of an entry. -/
def Entry.textBehind (e : Entry) (later : List Entry) (last : Option LastComment) : List Char :=
  layoutText e.layout ++ entriesText last later

namespace Entry

/-- The entry that follows another one directly, without layout between. -/
def next? (e : Entry) (later : List Entry) : Option Entry :=
  if e.layout.isEmpty then later.head? else none

/-- Whether a comment follows the lexeme of an entry directly. -/
def meetsComment (e : Entry) (later : List Entry) (last : Option LastComment) : Bool :=
  match e.layout with
  | s :: _ => s.isComment
  | [] => later.isEmpty && last.isSome

/-- **The lexeme of an entry does not run into what follows.** -/
structure Separated (e : Entry) (later : List Entry) (last : Option LastComment) : Prop where
  equal : e.lexeme.takesEqual → ∀ next ∈ e.next? later, next.lexeme.text.head? ≠ some '='
  slash : e.lexeme.text = ['/'] → ∀ next ∈ e.next? later, next.lexeme.text ≠ ['/']
  comment : e.lexeme.text = ['/'] → e.meetsComment later last = false
  number : e.lexeme.isNumber → ∀ next ∈ e.next? later, next.lexeme.isNumber = false
  point : e.lexeme.isInteger → ∀ next ∈ e.next? later, next.lexeme.text = ['.'] →
    ∀ after ∈ next.next? later.tail, after.lexeme.isNumber = false

instance (e : Entry) (later : List Entry) (last : Option LastComment) :
    Decidable (e.Separated later last) :=
  decidable_of_iff
    ((e.lexeme.takesEqual → ∀ next ∈ e.next? later, next.lexeme.text.head? ≠ some '=') ∧
      (e.lexeme.text = ['/'] → ∀ next ∈ e.next? later, next.lexeme.text ≠ ['/']) ∧
      (e.lexeme.text = ['/'] → e.meetsComment later last = false) ∧
      (e.lexeme.isNumber → ∀ next ∈ e.next? later, next.lexeme.isNumber = false) ∧
      (e.lexeme.isInteger → ∀ next ∈ e.next? later, next.lexeme.text = ['.'] →
        ∀ after ∈ next.next? later.tail, after.lexeme.isNumber = false))
    ⟨fun ⟨equal, slash, comment, number, point⟩ => ⟨equal, slash, comment, number, point⟩,
      fun h => ⟨h.equal, h.slash, h.comment, h.number, h.point⟩⟩

end Entry

/-- No lexeme of the entries runs into what follows it. -/
def AllSeparated (last : Option LastComment) : List Entry → Prop
  | [] => True
  | e :: later => e.Separated later last ∧ AllSeparated last later

instance decidableAllSeparated (last : Option LastComment) :
    (entries : List Entry) → Decidable (AllSeparated last entries)
  | [] => isTrue trivial
  | e :: later =>
      have := decidableAllSeparated last later
      inferInstanceAs (Decidable (e.Separated later last ∧ AllSeparated last later))

/-- The tokens that the entries stand for, if the text `before` is in front of them. -/
def expectedTokens (before : List Char) : List Entry → List Token
  | [] => []
  | e :: later =>
      { kind := e.lexeme.kind
        lexeme := String.ofList e.lexeme.text
        literal := e.lexeme.literal
        line := clip (1 + (before ++ e.lexeme.text).count '\n')
        span := ⟨UInt32.ofNat (byteSize before), UInt32.ofNat (byteSize e.lexeme.text)⟩ } ::
        expectedTokens (before ++ (e.lexeme.text ++ layoutText e.layout)) later

/-! ## What lexemes begin with -/

variable {w : Lexeme} {c : Char} {e : Entry} {later : List Entry} {last : Option LastComment}

theorem Lexeme.isNumber_of_head (hc : c.isDigit) (h : w.text.head? = some c) :
    w.isNumber = true := by
  cases w with
  | numeral n hn => rfl
  | punctuator p =>
      rw [p.isDigit_of_mem_spelling (List.mem_of_head? h)] at hc
      cases hc
  | string body hbody =>
      have hquote : '"' = c := Option.some.inj h
      rw [← hquote] at hc
      exact absurd hc (by decide)

/-- Nothing longer begins with a slash or a point. -/
theorem Lexeme.text_eq_singleton (hc : c = '/' ∨ c = '.') (h : w.text.head? = some c) :
    w.text = [c] := by
  cases w with
  | numeral n hn =>
      have hdigit : c.isDigit := hn.isDigit_of_head h
      rcases hc with rfl | rfl
      · exact absurd hdigit (by decide)
      · exact absurd hdigit (by decide)
  | punctuator p =>
      -- of the punctuators of two characters none begins with one of these
      have hspelling : ∀ d, d = '/' ∨ d = '.' → p.spelling.head? = some d → p.spelling = [d] := by
        rintro d (rfl | rfl) hd
        · revert hd
          cases p <;> decide
        · revert hd
          cases p <;> decide
      exact hspelling c hc h
  | string body hbody =>
      have hquote : '"' = c := Option.some.inj h
      rw [← hquote] at hc
      exact absurd hc (by decide)

theorem Lexeme.text_ne_nil (w : Lexeme) : w.text ≠ [] := by
  cases w with
  | numeral n hn =>
      intro hnil
      have hwhole : n.whole ≠ [] := hn.whole_ne_nil
      cases hfraction : n.fraction with
      | none => exact hwhole (by simpa [text, piece, Piece.text, Numeral.text, hfraction] using hnil)
      | some digits => simp [text, piece, Piece.text, Numeral.text, hfraction] at hnil
  | punctuator p => cases p <;> decide
  | string body hbody => exact List.cons_ne_nil _ _

/-- **What follows a lexeme** begins with a blank, with the slash of a comment or with the next
lexeme. -/
theorem head_textBehind (h : (e.textBehind later last).head? = some c) :
    isBlank c ∨ (c = '/' ∧ e.meetsComment later last = true) ∨
      ∃ next ∈ e.next? later, next.lexeme.text.head? = some c := by
  obtain ⟨lexeme, layout⟩ := e
  cases layout with
  | nil =>
      cases later with
      | nil =>
          cases last with
          | none => cases h
          | some comment =>
              have hslash : '/' = c := Option.some.inj h
              exact Or.inr (Or.inl ⟨hslash.symm, rfl⟩)
      | cons next later =>
          have hhead : (next.lexeme.text ++ next.textBehind later last).head? = some c := h
          rw [List.head?_append_of_ne_nil _ next.lexeme.text_ne_nil] at hhead
          exact Or.inr (Or.inr ⟨next, rfl, hhead⟩)
  | cons s layout =>
      cases s with
      | blank d hd =>
          have hblank : d = c := Option.some.inj h
          exact Or.inl (hblank ▸ hd)
      | comment body hbody =>
          have hslash : '/' = c := Option.some.inj h
          exact Or.inr (Or.inl ⟨hslash.symm, rfl⟩)

/-- If a lexeme follows directly, what is behind is that lexeme and what is behind it in turn. -/
theorem textBehind_of_next? {next : Entry} (last : Option LastComment)
    (h : next ∈ e.next? later) :
    ∃ later', later = next :: later' ∧
      e.textBehind later last = next.lexeme.text ++ next.textBehind later' last := by
  obtain ⟨lexeme, layout⟩ := e
  cases layout with
  | nil =>
      obtain ⟨later', rfl⟩ := List.head?_eq_some_iff.mp h
      exact ⟨later', rfl, rfl⟩
  | cons s layout => cases h

/-! ## Separated lexemes fit -/

theorem isBlank_eq_false_of_isDigit (hc : c.isDigit) : isBlank c = false := by
  by_cases hblank : isBlank c
  · have hopens := Opening.ofChar_of_isBlank hblank
    rw [Opening.ofChar_of_isDigit hc] at hopens
    cases hopens
  · simpa using hblank

/-- A digit behind a lexeme is that of a number that follows directly. -/
theorem next_isNumber (hc : c.isDigit) (h : (e.textBehind later last).head? = some c) :
    ∃ next ∈ e.next? later, next.lexeme.isNumber = true := by
  rcases head_textBehind h with hblank | ⟨rfl, -⟩ | ⟨next, hnext, hhead⟩
  · rw [isBlank_eq_false_of_isDigit hc] at hblank
    cases hblank
  · exact absurd hc (by decide)
  · exact ⟨next, hnext, Lexeme.isNumber_of_head hc hhead⟩

theorem fits_punctuator {p : Punctuator} {layout : List Space}
    (h : Entry.Separated ⟨.punctuator p, layout⟩ later last) :
    (Piece.punctuator p).Fits (Entry.textBehind ⟨.punctuator p, layout⟩ later last) := by
  constructor
  · intro hlonger hhead
    have htakes : (Lexeme.punctuator p).takesEqual = true := by
      revert hlonger
      cases p <;> decide
    rcases head_textBehind hhead with hblank | ⟨hslash, -⟩ | ⟨next, hnext, hequal⟩
    · exact absurd hblank (by decide)
    · exact absurd hslash (by decide)
    · exact h.equal htakes next hnext hequal
  · rintro rfl hhead
    rcases head_textBehind hhead with hblank | ⟨-, hcomment⟩ | ⟨next, hnext, hslash⟩
    · exact absurd hblank (by decide)
    · rw [h.comment rfl] at hcomment
      cases hcomment
    · exact h.slash rfl next hnext (Lexeme.text_eq_singleton (Or.inl rfl) hslash)

theorem fits_numeral {n : Numeral} {hn : n.WellFormed} {layout : List Space}
    (h : Entry.Separated ⟨.numeral n hn, layout⟩ later last) :
    n.Fits (Entry.textBehind ⟨.numeral n hn, layout⟩ later last) := by
  refine ⟨hn, ?_, ?_⟩
  · intro c hc
    by_cases hdigit : c.isDigit
    · obtain ⟨next, hnext, hnumber⟩ := next_isNumber hdigit hc
      rw [h.number rfl next hnext] at hnumber
      cases hnumber
    · simpa using hdigit
  · intro hinteger d more htext
    rcases head_textBehind (congrArg List.head? htext) with hblank | ⟨hslash, -⟩ |
      ⟨next, hnext, hhead⟩
    · exact absurd hblank (by decide)
    · exact absurd hslash (by decide)
    · -- the next lexeme is a point, and `d` is what follows it
      have hpoint := Lexeme.text_eq_singleton (Or.inr rfl) hhead
      obtain ⟨later', rfl, htext'⟩ := textBehind_of_next? last hnext
      have hbehind : next.textBehind later' last = d :: more := by
        rw [htext', hpoint] at htext
        exact List.tail_eq_of_cons_eq htext
      by_cases hdigit : d.isDigit
      · obtain ⟨after, hafter, hnumber⟩ :=
          next_isNumber hdigit (congrArg List.head? hbehind)
        have hinteger' : (Lexeme.numeral n hn).isInteger = true := by
          rw [Lexeme.isInteger, hinteger]
          rfl
        rw [h.point hinteger' next hnext hpoint after hafter] at hnumber
        cases hnumber
      · simpa using hdigit

/-- **A separated lexeme fits** in front of what follows. -/
theorem Entry.fits (h : e.Separated later last) :
    e.lexeme.piece.Fits (e.textBehind later last) := by
  obtain ⟨lexeme, layout⟩ := e
  cases lexeme with
  | punctuator p => exact fits_punctuator h
  | numeral n hn => exact fits_numeral h
  | string body hbody => exact hbody

/-! ## The pieces of an arrangement -/

/-- The pieces of some entries and of the last comment. -/
def entriesPieces (last : Option LastComment) : List Entry → List Piece
  | [] => last.toList.map fun comment => .comment comment.body
  | e :: later => e.lexeme.piece :: (e.layout.flatMap Space.pieces ++ entriesPieces last later)

/-- Layout fits in front of anything. -/
theorem pieces_layout (layout : List Space) (rest : List Char) :
    pieces (layoutText layout ++ rest) = layout.flatMap Space.pieces ++ pieces rest := by
  induction layout with
  | nil => rfl
  | cons s layout ih =>
      rw [layoutText, List.flatMap_cons, List.flatMap_cons, List.append_assoc, List.append_assoc,
        ← ih]
      cases s with
      | blank c hblank => exact pieces_append (show (Piece.blank c).Fits _ from hblank)
      | comment body hbody =>
          -- the line feed that ends the comment is a blank of its own
          have hfeed : (Piece.comment body).Fits ('\n' :: (layoutText layout ++ rest)) :=
            ⟨hbody, halts_cons (by decide)⟩
          have hblank : (Piece.blank '\n').Fits (layoutText layout ++ rest) := by
            show isBlank '\n'
            decide
          have hbehind : pieces ('\n' :: (layoutText layout ++ rest)) =
              .blank '\n' :: pieces (layoutText layout ++ rest) := pieces_append hblank
          have htext : Space.text (.comment body hbody) ++ (layoutText layout ++ rest) =
              (Piece.comment body).text ++ '\n' :: (layoutText layout ++ rest) := by
            simp [Space.text, Space.pieces, Piece.text]
          calc
            pieces (Space.text (.comment body hbody) ++ (layoutText layout ++ rest))
              = pieces ((Piece.comment body).text ++ '\n' :: (layoutText layout ++ rest)) := by
                rw [htext]
            _ = .comment body :: pieces ('\n' :: (layoutText layout ++ rest)) :=
                pieces_append hfeed
            _ = .comment body :: .blank '\n' :: pieces (layoutText layout ++ rest) := by
                rw [hbehind]

theorem pieces_entriesText {entries : List Entry} (h : AllSeparated last entries) :
    pieces (entriesText last entries) = entriesPieces last entries := by
  induction entries with
  | nil =>
      cases last with
      | none => exact pieces_nil
      | some comment =>
          have hfits : (Piece.comment comment.body).Fits [] := ⟨comment.oneLine, halts_nil⟩
          have hpieces := pieces_append hfits
          rwa [List.append_nil, pieces_nil] at hpieces
  | cons e later ih =>
      obtain ⟨hseparated, hlater⟩ := h
      calc
        pieces (entriesText last (e :: later))
          = e.lexeme.piece :: pieces (layoutText e.layout ++ entriesText last later) :=
            pieces_append (Entry.fits hseparated)
        _ = e.lexeme.piece :: (e.layout.flatMap Space.pieces ++ entriesPieces last later) := by
            rw [pieces_layout, ih hlater]

/-! ## The tokens of an arrangement -/

/-- In layout there are no tokens and no faults. -/
theorem nothing_in_layout (place : Place) (layout : List Space) :
    (locate place (layout.flatMap Space.pieces)).filterMap Located.token? = [] ∧
      (locate place (layout.flatMap Space.pieces)).filterMap Located.diagnostic? = [] := by
  have hnothing : ∀ l ∈ locate place (layout.flatMap Space.pieces),
      l.token? = none ∧ l.diagnostic? = none := by
    intro l hl
    obtain ⟨s, -, hpiece⟩ := List.mem_flatMap.mp (piece_mem_of_mem_locate hl)
    obtain ⟨piece, start⟩ := l
    cases s with
    | blank c hblank =>
        cases List.mem_singleton.mp hpiece
        exact ⟨rfl, rfl⟩
    | comment body hbody =>
        rcases List.mem_cons.mp hpiece with rfl | hfeed
        · exact ⟨rfl, rfl⟩
        · cases List.mem_singleton.mp hfeed
          exact ⟨rfl, rfl⟩
  rw [List.filterMap_eq_nil_iff, List.filterMap_eq_nil_iff]
  exact ⟨fun l hl => (hnothing l hl).1, fun l hl => (hnothing l hl).2⟩

theorem token?_lexeme (w : Lexeme) (start : Place) :
    Located.token? ⟨w.piece, start⟩ = some (Located.toToken ⟨w.piece, start⟩ w.kind w.literal) ∧
      Located.diagnostic? ⟨w.piece, start⟩ = none := by
  cases w with
  | punctuator p => exact ⟨rfl, rfl⟩
  | numeral n hn => exact ⟨rfl, rfl⟩
  | string body hbody => exact ⟨rfl, rfl⟩

/-- The token of a lexeme is in its place. -/
theorem toToken_lexeme (w : Lexeme) {before : List Char}
    (hsize : byteSize (before ++ w.text) ≤ 2 ^ 32 - 1) :
    Located.toToken ⟨w.piece, Place.origin.after before⟩ w.kind w.literal =
      { kind := w.kind
        lexeme := String.ofList w.text
        literal := w.literal
        line := clip (1 + (before ++ w.text).count '\n')
        span := ⟨UInt32.ofNat (byteSize before), UInt32.ofNat (byteSize w.text)⟩ } := by
  rw [Located.toToken, line_after, span_after w.piece hsize]
  rfl

/-- **The entries are found one after the other**, each where it is. -/
theorem tokens_entries (entries : List Entry) :
    ∀ before : List Char, byteSize (before ++ entriesText last entries) ≤ 2 ^ 32 - 1 →
      (locate (Place.origin.after before) (entriesPieces last entries)).filterMap
          Located.token? = expectedTokens before entries ∧
        (locate (Place.origin.after before) (entriesPieces last entries)).filterMap
          Located.diagnostic? = [] := by
  induction entries with
  | nil =>
      intro before hsize
      cases last with
      | none =>
          rw [entriesPieces, Option.toList_none, List.map_nil, locate_nil]
          exact ⟨rfl, rfl⟩
      | some comment =>
          rw [entriesPieces, Option.toList_some, List.map_singleton, locate_cons, locate_nil]
          exact ⟨rfl, rfl⟩
  | cons e later ih =>
      intro before hsize
      obtain ⟨htoken, hfault⟩ := token?_lexeme e.lexeme (Place.origin.after before)
      obtain ⟨hnone, hnone'⟩ :=
        nothing_in_layout ((Place.origin.after before).after e.lexeme.piece.text) e.layout
      have hlayout : (e.layout.flatMap Space.pieces).flatMap Piece.text = layoutText e.layout :=
        List.flatMap_assoc
      obtain ⟨htokens, hfaults⟩ := ih (before ++ (e.lexeme.text ++ layoutText e.layout)) (by
        simpa [entriesText] using hsize)
      have hlexeme : byteSize (before ++ e.lexeme.text) ≤ 2 ^ 32 - 1 := by
        rw [entriesText, ← List.append_assoc, byteSize_append] at hsize
        omega
      rw [Place.after_append, Place.after_append] at htokens hfaults
      rw [entriesPieces, locate_cons, locate_append, hlayout, List.filterMap_cons_some htoken,
        List.filterMap_cons_none hfault, List.filterMap_append, List.filterMap_append, hnone, hnone',
        List.nil_append, List.nil_append, expectedTokens, toToken_lexeme e.lexeme hlexeme]
      exact ⟨congrArg _ htokens, hfaults⟩

/-- **A text made of lexemes is taken apart into them**: the tokens are the lexemes in their places
and the end of the text, and there is nothing to report. -/
theorem lex_arrangement (a : Arrangement) (hseparated : AllSeparated a.last a.entries)
    (hsize : (String.ofList a.text).utf8ByteSize ≤ 2 ^ 32 - 1) :
    lex (String.ofList a.text) =
      { tokens := expectedTokens (layoutText a.lead) a.entries ++
          [eofToken (Place.origin.after a.text)]
        diagnostics := [] } := by
  have hpieces : pieces a.text =
      a.lead.flatMap Space.pieces ++ entriesPieces a.last a.entries := by
    rw [Arrangement.text, pieces_layout, pieces_entriesText hseparated]
  have hlayout : (a.lead.flatMap Space.pieces).flatMap Piece.text = layoutText a.lead :=
    List.flatMap_assoc
  rw [utf8ByteSize_ofList] at hsize
  obtain ⟨htokens, hfaults⟩ := tokens_entries a.entries (layoutText a.lead) hsize
  obtain ⟨hnone, hnone'⟩ := nothing_in_layout .origin a.lead
  rw [lex_eq, String.toList_ofList, Lexed.ofText, located, hpieces, locate_append, hlayout]
  simp only [List.filterMap_append, hnone, hnone', htokens, hfaults, List.nil_append]

/-- The text `!( 1.\t"a"//`, in which the number is not lengthened by the point behind it. -/
def Arrangement.closePacked : Arrangement where
  lead := []
  entries :=
    [⟨.punctuator .bang, []⟩, ⟨.punctuator .leftParen, [.blank ' ' rfl]⟩,
      ⟨.numeral ⟨['1'], none⟩ (Numeral.wellFormed_integer (List.cons_ne_nil _ _)
        (List.forall_mem_singleton.mpr rfl)), []⟩,
      ⟨.punctuator .dot, [.blank '\t' rfl]⟩, ⟨.string ['a'] (by decide), []⟩]
  last := some ⟨[], nofun⟩

theorem lex_closePacked :
    AllSeparated Arrangement.closePacked.last Arrangement.closePacked.entries ∧
      (String.ofList Arrangement.closePacked.text).utf8ByteSize ≤ 2 ^ 32 - 1 ∧
      lex "!( 1.\t\"a\"//" =
        { tokens :=
            [⟨.punctuator .bang, "!", .absent, 1, ⟨0, 1⟩⟩,
              ⟨.punctuator .leftParen, "(", .absent, 1, ⟨1, 1⟩⟩,
              ⟨.number, "1", .number (Binary64.ofBits 0x3FF0000000000000), 1, ⟨3, 1⟩⟩,
              ⟨.punctuator .dot, ".", .absent, 1, ⟨4, 1⟩⟩,
              ⟨.string, "\"a\"", .string "a", 1, ⟨6, 3⟩⟩, ⟨.eof, "", .absent, 1, ⟨11, 0⟩⟩]
          diagnostics := [] } := by
  have hseparated : AllSeparated Arrangement.closePacked.last Arrangement.closePacked.entries := by
    decide
  have hsize : (String.ofList Arrangement.closePacked.text).utf8ByteSize ≤ 2 ^ 32 - 1 := by decide
  have hone : Binary64.ofBits 0x3FF0000000000000 = Numeral.value ⟨['1'], none⟩ := by decide +kernel
  refine ⟨hseparated, hsize, ?_⟩
  rw [hone]
  exact lex_arrangement Arrangement.closePacked hseparated hsize

end LoxLexer
