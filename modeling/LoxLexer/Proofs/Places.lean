import LoxLexer.Lex
import LoxLexer.Piece.Fits

/-!
# Where the pieces of a text are

The places of the pieces follow from the texts in front of them (`mem_located`). Spans hold 32-bit
offsets; in a text of at most `2 ^ 32 - 1` bytes all offsets fit, and the span of a piece is
exactly where it is (`toNat_start_span`, `toNat_length_span`), so that it cuts the text of the
piece out of the source (`slice?_span`).
-/

set_option autoImplicit false

namespace LoxLexer

variable {text : List Char} {l : Located}

/-! ## Places -/

theorem mem_locate_pieces (text : List Char) :
    ∀ {place : Place}, l ∈ locate place (pieces text) →
      ∃ done rest, text = done ++ (l.piece.text ++ rest) ∧ l.piece.Fits rest ∧
        l.start = place.after done := by
  induction text using text_induction with
  | nil =>
      intro place hmem
      rw [pieces_nil, locate_nil] at hmem
      cases hmem
  | piece piece rest hfits ih =>
      intro place hmem
      rw [pieces_append hfits, locate_cons] at hmem
      rcases List.mem_cons.mp hmem with rfl | hlater
      · exact ⟨[], rest, rfl, hfits, (Place.after_nil place).symm⟩
      · obtain ⟨done, after, rfl, hafter, hstart⟩ := ih hlater
        refine ⟨piece.text ++ done, after, (List.append_assoc _ _ _).symm, hafter, ?_⟩
        rw [hstart, Place.after_append]

/-- **The place of a piece** is that behind the text in front of it. -/
theorem mem_located (h : l ∈ located text) :
    ∃ done rest, text = done ++ (l.piece.text ++ rest) ∧ l.piece.Fits rest ∧
      l.start = Place.origin.after done :=
  mem_locate_pieces text h

theorem offset_of_mem_located (h : l ∈ located text) :
    l.start.offset + byteSize l.piece.text ≤ byteSize text := by
  obtain ⟨done, rest, rfl, -, hstart⟩ := mem_located h
  calc
    l.start.offset + byteSize l.piece.text
      = 0 + byteSize done + byteSize l.piece.text := by rw [hstart]; rfl
    _ ≤ byteSize done + (byteSize l.piece.text + byteSize rest) := by omega
    _ = byteSize (done ++ (l.piece.text ++ rest)) := by rw [byteSize_append, byteSize_append]

/-- A piece is cut out of the source by what is in front of it and what is behind it. -/
theorem exists_cut {source : String} (h : l ∈ located source.toList) :
    ∃ done rest, source = String.ofList (done ++ (l.piece.text ++ rest)) ∧ l.piece.Fits rest ∧
      l.start = Place.origin.after done := by
  obtain ⟨done, rest, htext, hfits, hstart⟩ := mem_located h
  refine ⟨done, rest, ?_, hfits, hstart⟩
  rw [← htext, String.ofList_toList]

/-! ## Tokens and diagnostics -/

namespace Lexed

/-- The unexpected characters. -/
def unexpected (lexed : Lexed) : List Diagnostic :=
  lexed.diagnostics.filter fun d => d.code = 1001

/-- The strings that are not closed. -/
def unterminated (lexed : Lexed) : List Diagnostic :=
  lexed.diagnostics.filter fun d => d.code = 1002

end Lexed

/-- What holds of the pieces that are tokens and of the end of a text holds of all its tokens. -/
theorem forall_tokens {P : Token → Prop} (hinner : ∀ l ∈ located text, ∀ t, l.token? = some t → P t)
    (hlast : P (eofToken (Place.origin.after text))) : ∀ t ∈ (Lexed.ofText text).tokens, P t := by
  intro t ht
  rcases List.mem_append.mp ht with hmem | hend
  · obtain ⟨l, hl, htoken⟩ := List.mem_filterMap.mp hmem
    exact hinner l hl t htoken
  · rw [List.mem_singleton.mp hend]
    exact hlast

theorem forall_diagnostics {P : Diagnostic → Prop}
    (hfaulty : ∀ l ∈ located text, ∀ d, l.diagnostic? = some d → P d) :
    ∀ d ∈ (Lexed.ofText text).diagnostics, P d := by
  intro d hd
  obtain ⟨l, hl, hfault⟩ := List.mem_filterMap.mp hd
  exact hfaulty l hl d hfault

/-- A token is where its piece is. -/
theorem exists_of_mem_token? {items : List Located} {t : Token}
    (h : t ∈ items.filterMap Located.token?) :
    ∃ l ∈ items, t.line = l.line ∧ t.span = l.span := by
  obtain ⟨l, hl, htoken⟩ := List.mem_filterMap.mp h
  obtain ⟨kind, literal, -, rfl⟩ := Located.of_token?_eq_some htoken
  exact ⟨l, hl, rfl, rfl⟩

/-- So is a diagnostic. -/
theorem exists_of_mem_diagnostic? {items : List Located} {d : Diagnostic}
    (h : d ∈ items.filterMap Located.diagnostic?) :
    ∃ l ∈ items, l.diagnostic? = some d ∧ d.line = l.line ∧ d.span = l.span := by
  obtain ⟨l, hl, hfault⟩ := List.mem_filterMap.mp h
  obtain ⟨template, arguments, rfl⟩ := Located.of_diagnostic?_eq_some hfault
  exact ⟨l, hl, hfault, rfl, rfl⟩

/-- Only stray characters are reported as unexpected. -/
theorem exists_stray_of_unexpected {d : Diagnostic} (h : l.diagnostic? = some d)
    (hcode : d.code = 1001) : ∃ c, l.piece = .stray c := by
  obtain ⟨piece, start⟩ := l
  cases piece with
  | stray c => exact ⟨c, rfl⟩
  | unclosed body =>
      cases h
      cases hcode
  | _ => cases h

/-! ## Spans -/

theorem toNat_start_span (hsize : byteSize text ≤ 2 ^ 32 - 1) (h : l ∈ located text) :
    l.span.start.toNat = l.start.offset :=
  Span.toNat_start_covering (Nat.le_trans (offset_of_mem_located h) hsize)

theorem toNat_length_span (hsize : byteSize text ≤ 2 ^ 32 - 1) (h : l ∈ located text) :
    l.span.length.toNat = byteSize l.piece.text :=
  Span.toNat_length_covering (Nat.le_trans (offset_of_mem_located h) hsize)

/-- The span of a piece ends where the piece does. -/
theorem start_add_length_span (hsize : byteSize text ≤ 2 ^ 32 - 1) (h : l ∈ located text) :
    l.span.start.toNat + l.span.length.toNat = l.stop.offset := by
  rw [toNat_start_span hsize h, toNat_length_span hsize h]
  rfl

variable {before : List Char}

/-- The line of a piece behind `before` counts the line feeds up to its end. -/
theorem line_after (piece : Piece) (before : List Char) :
    Located.line ⟨piece, Place.origin.after before⟩ =
      clip (1 + (before ++ piece.text).count '\n') := by
  rw [Located.line, Located.stop, ← Place.after_append]
  rfl

/-- **The span of a piece behind `before`**: it starts there and is as long as the piece. -/
theorem span_after (piece : Piece) (hsize : byteSize (before ++ piece.text) ≤ 2 ^ 32 - 1) :
    Located.span ⟨piece, Place.origin.after before⟩ =
      ⟨UInt32.ofNat (byteSize before), UInt32.ofNat (byteSize piece.text)⟩ := by
  rw [byteSize_append] at hsize
  calc
    Located.span ⟨piece, Place.origin.after before⟩
      = Span.covering (0 + byteSize before) (byteSize piece.text) := rfl
    _ = Span.covering (byteSize before) (byteSize piece.text) := by rw [Nat.zero_add]
    _ = ⟨UInt32.ofNat (byteSize before), UInt32.ofNat (byteSize piece.text)⟩ :=
        Span.covering_eq_ofNat hsize

/-- The bytes of a text are read as the text. -/
theorem fromUTF8?_toByteArray (s : String) : String.fromUTF8? s.toByteArray = some s := by
  rw [String.fromUTF8?, dif_pos s.isValidUTF8]
  rfl

/-- A span cuts out what stands between its bounds. -/
theorem slice?_of_append {span : Span} {source : String} (done middle rest : List Char)
    (hsource : source = String.ofList (done ++ (middle ++ rest)))
    (hstart : span.start.toNat = byteSize done) (hlength : span.length.toNat = byteSize middle) :
    span.slice? source = some (String.ofList middle) := by
  have hsize (t : List Char) : byteSize t = (String.ofList t).toByteArray.size :=
    (utf8ByteSize_ofList t).symm
  have hle : byteSize done + byteSize middle ≤ source.utf8ByteSize := by
    rw [hsource, utf8ByteSize_ofList, byteSize_append, byteSize_append]
    omega
  -- the bytes behind those of `done` are those of `middle`, and then others
  have hbytes : source.toByteArray.extract (byteSize done) (byteSize done + byteSize middle) =
      (String.ofList middle).toByteArray := by
    have hbehind := ByteArray.extract_append_size_add (a := (String.ofList done).toByteArray)
      (b := (String.ofList (middle ++ rest)).toByteArray) (i := 0) (j := byteSize middle)
    have hmiddle : (String.ofList (middle ++ rest)).toByteArray.extract 0 (byteSize middle) =
        (String.ofList middle).toByteArray := by
      rw [String.ofList_append, String.toByteArray_append]
      exact ByteArray.extract_append_eq_left (hsize middle)
    rw [Nat.add_zero, ← hsize done, hmiddle] at hbehind
    rw [hsource, String.ofList_append, String.toByteArray_append]
    exact hbehind
  rw [Span.slice?, hstart, hlength]
  show (if byteSize done + byteSize middle ≤ source.utf8ByteSize then _ else _) = _
  rw [if_pos hle, hbytes, fromUTF8?_toByteArray]

/-- **The span of a piece** cuts the text of the piece out of the source. -/
theorem slice?_span {source : String} (hsize : source.utf8ByteSize ≤ 2 ^ 32 - 1)
    (h : l ∈ located source.toList) :
    l.span.slice? source = some (String.ofList l.piece.text) := by
  have hsize' : byteSize source.toList ≤ 2 ^ 32 - 1 := by
    rwa [byteSize_toList]
  obtain ⟨done, rest, htext, -, hstart⟩ := mem_located h
  have hdone : l.start.offset = byteSize done := by
    rw [hstart]
    exact Nat.zero_add _
  refine slice?_of_append done _ rest (by rw [← htext, String.ofList_toList]) ?_
    (toNat_length_span hsize' h)
  rw [toNat_start_span hsize' h, hdone]

end LoxLexer
