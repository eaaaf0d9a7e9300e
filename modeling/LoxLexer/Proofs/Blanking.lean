import LoxLexer.Proofs.Lines

/-!
# Comments and bad characters leave no trace

Comments are skipped and bad characters are reported, and nothing else of a scan depends on them: a
source in which each of their bytes has been replaced by a space holds the same tokens at the same
places, and what is left to report is the string that is not closed (`lex_blanked`).

Blanking goes by the bytes that spans cover. The blanked bytes are those of a text again, which is
made piece by piece (`blank?_eq`). Up to the first space put in, the new text is the old one, so a
piece fits in front of the one as it did in front of the other (`Piece.Fits.fade`). Hence the new
text has the same pieces, but for blanks in the place of what was blanked (`pieces_blankText`).
-/

set_option autoImplicit false

namespace LoxLexer

/-! ## Blanking a source -/

/-- Whether the byte at an offset is in the span. -/
def Span.covers (offset : Nat) (s : Span) : Bool :=
  decide (s.start.toNat ≤ offset ∧ offset < s.start.toNat + s.length.toNat)

/-- The span of a piece that is a comment. -/
def Located.commentSpan? (l : Located) : Option Span :=
  match l.piece with
  | .comment _ => some l.span
  | .punctuator _ | .string _ | .numeral _ | .blank _ | .stray _ | .unclosed _ => none

/-- The spans of the comments that are skipped in a source. -/
def commentSpans (source : String) : List Span :=
  (located source.toList).filterMap Located.commentSpan?

/-- The spans of the unexpected characters that are reported about a source. -/
def unexpectedSpans (source : String) : List Span :=
  (lex source).unexpected.map Diagnostic.span

/-- Some bytes, with a space for each one whose offset is marked. -/
def blankBytes (marked : Nat → Bool) (bytes : List UInt8) : List UInt8 :=
  bytes.mapIdx fun offset byte => if marked offset then ' '.toUInt8 else byte

/-- **The blanked source**: there is a space for each byte of a comment and of an unexpected
character. -/
def blank? (source : String) : Option String :=
  let spans := commentSpans source ++ unexpectedSpans source
  String.fromUTF8? (blankBytes (fun offset => spans.any (Span.covers offset))
    source.toByteArray.data.toList).toByteArray

/-! ## Blanking pieces -/

namespace Piece

/-- Whether the piece is blanked: a comment or a stray character. -/
def isInert : Piece → Bool
  | comment _ | stray _ => true
  | punctuator _ | string _ | numeral _ | blank _ | unclosed _ => false

/-- What is read in the place of a piece: a blank for each byte of it, if it is blanked. -/
def blanked (piece : Piece) : List Piece :=
  if piece.isInert then List.replicate (byteSize piece.text) (.blank ' ') else [piece]

end Piece

/-- What is read in the place of the pieces of a text. -/
def blankedPieces (text : List Char) : List Piece := (pieces text).flatMap Piece.blanked

/-- A text with a space for each byte of a piece that is blanked. -/
def blankText (text : List Char) : List Char := (blankedPieces text).flatMap Piece.text

variable {piece : Piece} {text rest faded : List Char} {place : Place} {l : Located} {n : Nat}

/-- Blanks are spaces, one for each. -/
theorem text_replicate_blank (n : Nat) :
    (List.replicate n (Piece.blank ' ')).flatMap Piece.text = List.replicate n ' ' :=
  List.flatMap_replicate.trans List.flatten_replicate_singleton

/-- Spaces are bytes, one for each. -/
theorem encode_replicate_space (n : Nat) :
    encode (List.replicate n ' ') = List.replicate n ' '.toUInt8 :=
  List.flatMap_replicate.trans List.flatten_replicate_singleton

theorem byteSize_replicate_space (n : Nat) : byteSize (List.replicate n ' ') = n := by
  rw [← length_encode, encode_replicate_space, List.length_replicate]

theorem blankedPieces_append (h : piece.Fits rest) :
    blankedPieces (piece.text ++ rest) = piece.blanked ++ blankedPieces rest := by
  rw [blankedPieces, pieces_append h, List.flatMap_cons, blankedPieces]

/-- A piece that is not blanked is kept. -/
theorem blankText_append (h : piece.Fits rest) (hinert : piece.isInert = false) :
    blankText (piece.text ++ rest) = piece.text ++ blankText rest := by
  rw [blankText, blankedPieces_append h, Piece.blanked, hinert]
  rfl

/-- One that is blanked makes spaces. -/
theorem blankText_append_inert (h : piece.Fits rest) (hinert : piece.isInert = true) :
    blankText (piece.text ++ rest) =
      List.replicate (byteSize piece.text) ' ' ++ blankText rest := by
  rw [blankText, blankedPieces_append h, Piece.blanked, if_pos hinert, List.flatMap_append,
    text_replicate_blank]
  rfl

/-! ## What fits in front of a blanked text -/

/-- The second text is the first one up to a space that has been put in, if there is one. -/
inductive Faded : List Char → List Char → Prop where
  | nil : Faded [] []
  | same {c : Char} {text faded : List Char} : Faded text faded → Faded (c :: text) (c :: faded)
  | space {c : Char} {text faded : List Char} : Faded (c :: text) (' ' :: faded)

theorem Faded.append (front : List Char) (h : Faded text faded) :
    Faded (front ++ text) (front ++ faded) := by
  induction front with
  | nil => exact h
  | cons c front ih => exact .same ih

theorem faded_blankText (text : List Char) : Faded text (blankText text) := by
  induction text using text_induction with
  | nil =>
      rw [blankText, blankedPieces, pieces_nil]
      exact .nil
  | piece piece rest hfits ih =>
      cases hinert : piece.isInert with
      | false =>
          rw [blankText_append hfits hinert]
          exact ih.append piece.text
      | true =>
          obtain ⟨c, behind, htext⟩ := List.exists_cons_of_ne_nil hfits.text_ne_nil
          obtain ⟨size, hsize⟩ := Nat.exists_eq_add_one_of_ne_zero
            (Nat.ne_of_gt (byteSize_pos hfits.text_ne_nil))
          rw [blankText_append_inert hfits hinert, hsize, htext]
          exact .space

/-- What is next is the same as before or a space. -/
theorem Faded.head_of {p : Char → Prop} (h : Faded text faded) (hspace : p ' ')
    (hhead : ∀ c, text.head? = some c → p c) : ∀ c, faded.head? = some c → p c := by
  intro c hc
  cases h with
  | nil => cases hc
  | same h => exact hhead c hc
  | space =>
      cases hc
      exact hspace

/-- A point and a digit are next only if they were before. -/
theorem Faded.no_point (h : Faded text faded)
    (hno : ∀ d more, text = '.' :: d :: more → d.isDigit = false) :
    ∀ d more, faded = '.' :: d :: more → d.isDigit = false := by
  rintro d more rfl
  cases h with
  | same h =>
      cases h with
      | same h => exact hno d _ rfl
      | space => decide

/-- **A piece other than a comment fits in front of what has faded** as it did before. -/
theorem Piece.Fits.fade (h : piece.Fits rest) (hfaded : Faded rest faded)
    (hinert : piece.isInert = false) : piece.Fits faded := by
  cases piece with
  | punctuator p =>
      have hequal (hlonger : p.withEqual? ≠ none) :=
        hfaded.head_of (p := (· ≠ '=')) (by decide) fun c hc heq => h.1 hlonger (heq ▸ hc)
      have hsecond (hslash : p = .slash) :=
        hfaded.head_of (p := (· ≠ '/')) (by decide) fun c hc heq => h.2 hslash (heq ▸ hc)
      exact ⟨fun hlonger hc => hequal hlonger _ hc rfl, fun hslash hc => hsecond hslash _ hc rfl⟩
  | string body => exact h
  | numeral n =>
      refine ⟨h.wellFormed, hfaded.head_of (by decide) h.halts, ?_⟩
      exact fun hinteger => hfaded.no_point (h.no_point hinteger)
  | blank c => exact h
  | comment body => cases hinert
  | stray c => cases hinert
  | unclosed body =>
      obtain ⟨hbody, rfl⟩ := h
      cases hfaded
      exact ⟨hbody, rfl⟩

/-! ## The pieces of a blanked text -/

/-- Spaces are blanks, one by one. -/
theorem pieces_replicate_space (n : Nat) (rest : List Char) :
    pieces (List.replicate n ' ' ++ rest) = List.replicate n (.blank ' ') ++ pieces rest := by
  induction n with
  | zero => rfl
  | succ n ih =>
      have hblank : (Piece.blank ' ').Fits (List.replicate n ' ' ++ rest) := by
        show isBlank ' '
        decide
      rw [List.replicate_succ, List.cons_append, List.replicate_succ, List.cons_append, ← ih]
      exact pieces_append hblank

/-- **A blanked text has the pieces of the text**, with blanks in the place of what was blanked. -/
theorem pieces_blankText (text : List Char) : pieces (blankText text) = blankedPieces text := by
  induction text using text_induction with
  | nil => rw [blankText, blankedPieces, pieces_nil, List.flatMap_nil, List.flatMap_nil, pieces_nil]
  | piece piece rest hfits ih =>
      rw [blankedPieces_append hfits, ← ih]
      cases hinert : piece.isInert with
      | false =>
          have hblank := hfits.fade (faded_blankText rest) hinert
          rw [blankText_append hfits hinert, pieces_append hblank, Piece.blanked, hinert]
          rfl
      | true =>
          rw [blankText_append_inert hfits hinert, pieces_replicate_space, Piece.blanked,
            if_pos hinert]

/-- What has been blanked is not blanked again. -/
theorem blankedPieces_blankText (text : List Char) :
    blankedPieces (blankText text) = blankedPieces text := by
  have hpiece (piece : Piece) : piece.blanked.flatMap Piece.blanked = piece.blanked := by
    rw [Piece.blanked]
    split
    · rw [List.flatMap_replicate]
      exact List.flatten_replicate_singleton
    · rename_i hinert
      rw [List.flatMap_singleton, Piece.blanked, if_neg hinert]
  rw [blankedPieces, pieces_blankText, blankedPieces, List.flatMap_assoc]
  simp only [hpiece]

/-! ## The places in a blanked text -/

/-- No line ends in what is blanked. -/
theorem lineFeed_not_mem_of_inert (h : piece.Fits rest) (hinert : piece.isInert = true) :
    '\n' ∉ piece.text := by
  cases piece with
  | comment body =>
      intro hmem
      simp only [Piece.text, List.mem_cons] at hmem
      rcases hmem with hslash | hslash | hbody
      · cases hslash
      · cases hslash
      · exact h.1 hbody
  | stray c =>
      intro hmem
      rw [← List.mem_singleton.mp hmem] at h
      cases h
  | _ => cases hinert

/-- Blanking does not move what is behind. -/
theorem after_replicate_space (place : Place) (h : '\n' ∉ text) :
    place.after (List.replicate (byteSize text) ' ') = place.after text := by
  have hnone : '\n' ∉ List.replicate (byteSize text) ' ' := by
    intro hmem
    exact absurd (List.eq_of_mem_replicate hmem) (by decide)
  rw [Place.after, Place.after, byteSize_replicate_space, List.count_eq_zero.mpr h,
    List.count_eq_zero.mpr hnone]

theorem after_blankText (text : List Char) :
    ∀ place : Place, place.after (blankText text) = place.after text := by
  induction text using text_induction with
  | nil =>
      intro place
      rw [blankText, blankedPieces, pieces_nil, List.flatMap_nil, List.flatMap_nil]
  | piece piece rest hfits ih =>
      intro place
      cases hinert : piece.isInert with
      | false =>
          rw [blankText_append hfits hinert, Place.after_append, Place.after_append, ih]
      | true =>
          rw [blankText_append_inert hfits hinert, Place.after_append, Place.after_append, ih,
            after_replicate_space place (lineFeed_not_mem_of_inert hfits hinert)]

/-! ## What a blanked text holds -/

/-- In blanks there are no tokens and no faults. -/
theorem nothing_in_blanks (n : Nat) (place : Place) :
    (locate place (List.replicate n (.blank ' '))).filterMap Located.token? = [] ∧
      (locate place (List.replicate n (.blank ' '))).filterMap Located.diagnostic? = [] := by
  have hblank : ∀ l ∈ locate place (List.replicate n (.blank ' ')), l.piece = .blank ' ' :=
    fun l hl => List.eq_of_mem_replicate (piece_mem_of_mem_locate hl)
  rw [List.filterMap_eq_nil_iff, List.filterMap_eq_nil_iff]
  constructor
  · intro l hl
    rw [Located.token?, hblank l hl]
  · intro l hl
    rw [Located.diagnostic?, hblank l hl]

/-- The diagnostic of a piece that is a string that is not closed. -/
def Located.unterminated? (l : Located) : Option Diagnostic :=
  l.diagnostic?.filter fun d => d.code = 1002

/-- **What is read in the place of a piece** is the same token, if it is one, and what is reported
about it is only that it is not closed. -/
theorem locate_blanked (hfits : piece.Fits rest) (place : Place) :
    (locate place piece.blanked).filterMap Located.token? =
        [⟨piece, place⟩].filterMap Located.token? ∧
      (locate place piece.blanked).filterMap Located.diagnostic? =
        [⟨piece, place⟩].filterMap Located.unterminated? ∧
      place.after (piece.blanked.flatMap Piece.text) = place.after piece.text := by
  cases hinert : piece.isInert with
  | true =>
      -- a comment is no token and not reported, and a stray character is reported as such
      have hnothing : Located.token? ⟨piece, place⟩ = none ∧
          Located.unterminated? ⟨piece, place⟩ = none := by
        cases piece with
        | comment body => exact ⟨rfl, rfl⟩
        | stray c => exact ⟨rfl, rfl⟩
        | _ => cases hinert
      obtain ⟨htoken, hfault⟩ := hnothing
      obtain ⟨hnone, hnone'⟩ := nothing_in_blanks (byteSize piece.text) place
      rw [Piece.blanked, if_pos hinert, hnone, hnone', text_replicate_blank,
        after_replicate_space place (lineFeed_not_mem_of_inert hfits hinert),
        List.filterMap_cons_none htoken, List.filterMap_cons_none hfault]
      exact ⟨rfl, rfl, rfl⟩
  | false =>
      have hkept : piece.blanked = [piece] := by
        rw [Piece.blanked, hinert]
        rfl
      have hfault : Located.unterminated? ⟨piece, place⟩ = Located.diagnostic? ⟨piece, place⟩ := by
        cases piece with
        | comment body => cases hinert
        | stray c => cases hinert
        | _ => rfl
      rw [hkept, locate_cons, locate_nil, List.flatMap_singleton]
      refine ⟨rfl, ?_, rfl⟩
      rw [List.filterMap_cons, List.filterMap_cons, hfault]
      rfl

/-- **A blanked text holds the tokens of the text** at the same places, and of what is reported only
the string that is not closed is left. -/
theorem locate_blankText (text : List Char) :
    ∀ place : Place,
      (locate place (blankedPieces text)).filterMap Located.token? =
          (locate place (pieces text)).filterMap Located.token? ∧
        (locate place (blankedPieces text)).filterMap Located.diagnostic? =
          (locate place (pieces text)).filterMap Located.unterminated? := by
  induction text using text_induction with
  | nil =>
      intro place
      rw [blankedPieces, pieces_nil, List.flatMap_nil, locate_nil]
      exact ⟨rfl, rfl⟩
  | piece piece rest hfits ih =>
      intro place
      obtain ⟨htoken, hfault, hplace⟩ := locate_blanked hfits place
      obtain ⟨htokens, hfaults⟩ := ih (place.after piece.text)
      rw [blankedPieces_append hfits, locate_append, hplace, pieces_append hfits, locate_cons,
        ← List.singleton_append]
      simp only [List.filterMap_append, htoken, hfault, htokens, hfaults, and_self]

/-- At most one string is not closed, since it goes on to the end. -/
theorem length_unterminated_le (text : List Char) :
    ∀ place : Place,
      ((locate place (pieces text)).filterMap Located.unterminated?).length ≤ 1 := by
  induction text using text_induction with
  | nil =>
      intro place
      rw [pieces_nil, locate_nil]
      exact Nat.zero_le 1
  | piece piece rest hfits ih =>
      intro place
      rw [pieces_append hfits, locate_cons]
      cases piece with
      | unclosed body =>
          obtain ⟨-, rfl⟩ := hfits
          rw [pieces_nil, locate_nil]
          exact Nat.le_refl 1
      | _ => exact ih _

/-! ## The bytes of a blanked text -/

/-- Whether the byte at an offset is one of the piece, and the piece is blanked. -/
def Located.blanksByte (offset : Nat) (l : Located) : Bool :=
  l.piece.isInert && decide (l.start.offset ≤ offset ∧ offset < l.stop.offset)

/-- A byte of the first piece is blanked with it. -/
theorem any_blanksByte_of_lt {i : Nat} (hi : i < byteSize piece.text) (place : Place)
    (rest : List Char) :
    (⟨piece, place⟩ :: locate (place.after piece.text) (pieces rest)).any
        (Located.blanksByte (place.offset + i)) = piece.isInert := by
  have hlater : (locate (place.after piece.text) (pieces rest)).any
      (Located.blanksByte (place.offset + i)) = false := by
    rw [List.any_eq_false]
    intro l hl hblanks
    obtain ⟨done, -, -, -, hstart⟩ := mem_locate_pieces rest hl
    have hoffset : l.start.offset = place.offset + byteSize piece.text + byteSize done := by
      rw [hstart]
      rfl
    have hwithin := of_decide_eq_true (Bool.and_elim_right hblanks)
    omega
  have hhere : Located.blanksByte (place.offset + i) ⟨piece, place⟩ = piece.isInert := by
    have hwithin : place.offset ≤ place.offset + i ∧
        place.offset + i < place.offset + byteSize piece.text := by omega
    rw [Located.blanksByte]
    exact (congrArg (piece.isInert && ·) (decide_eq_true hwithin)).trans (Bool.and_true _)
  rw [List.any_cons, hlater, hhere, Bool.or_false]

/-- One behind it is not. -/
theorem any_blanksByte_of_le (i : Nat) (place : Place) (later : List Located) :
    (⟨piece, place⟩ :: later).any (Located.blanksByte (place.offset + (i + byteSize piece.text))) =
      later.any (Located.blanksByte ((place.after piece.text).offset + i)) := by
  have hsum : place.offset + (i + byteSize piece.text) = (place.after piece.text).offset + i := by
    show _ = place.offset + byteSize piece.text + i
    omega
  have hhere : Located.blanksByte ((place.after piece.text).offset + i) ⟨piece, place⟩ = false := by
    refine (congrArg (piece.isInert && ·) (decide_eq_false ?_)).trans (Bool.and_false _)
    exact fun hwithin => Nat.not_lt.mpr (Nat.le_add_right _ i) hwithin.2
  rw [List.any_cons, hsum, hhere, Bool.false_or]

section Bytes

variable {marked : Nat → Bool} {bytes : List UInt8}

theorem blankBytes_append (front behind : List UInt8) :
    blankBytes marked (front ++ behind) =
      blankBytes marked front ++ blankBytes (fun i => marked (i + front.length)) behind :=
  List.mapIdx_append

theorem blankBytes_of_all (h : ∀ i, i < bytes.length → marked i = true) :
    blankBytes marked bytes = List.replicate bytes.length ' '.toUInt8 := by
  rw [blankBytes, List.mapIdx_eq_replicate_iff]
  intro i hi
  rw [if_pos (h i hi)]

theorem blankBytes_of_none (h : ∀ i, i < bytes.length → marked i = false) :
    blankBytes marked bytes = bytes := by
  rw [blankBytes, List.mapIdx_eq_iff]
  intro i
  by_cases hi : i < bytes.length
  · rw [List.getElem?_eq_getElem hi, Option.map_some, h i hi]
    rfl
  · rw [List.getElem?_eq_none (Nat.le_of_not_lt hi), Option.map_none]

end Bytes

/-- **The bytes of a blanked text** are those of the text, with spaces where pieces are blanked. -/
theorem encode_blankText (text : List Char) :
    ∀ place : Place,
      blankBytes (fun i => (locate place (pieces text)).any (Located.blanksByte (place.offset + i)))
        (encode text) = encode (blankText text) := by
  induction text using text_induction with
  | nil =>
      intro place
      rw [blankText, blankedPieces, pieces_nil, List.flatMap_nil, List.flatMap_nil]
      rfl
  | piece piece rest hfits ih =>
      intro place
      -- within the first piece, all bytes are blanked or none
      have hwithin : ∀ i, i < (encode piece.text).length →
          (⟨piece, place⟩ :: locate (place.after piece.text) (pieces rest)).any
            (Located.blanksByte (place.offset + i)) = piece.isInert := fun i hi =>
        any_blanksByte_of_lt (length_encode piece.text ▸ hi) place rest
      rw [encode_append, pieces_append hfits, locate_cons, blankBytes_append]
      simp only [length_encode, any_blanksByte_of_le]
      rw [ih (place.after piece.text)]
      cases hinert : piece.isInert with
      | false =>
          rw [hinert] at hwithin
          rw [blankBytes_of_none hwithin, blankText_append hfits hinert, encode_append]
      | true =>
          rw [hinert] at hwithin
          rw [blankBytes_of_all hwithin, blankText_append_inert hfits hinert, encode_append,
            encode_replicate_space, length_encode]

/-! ## The spans of what is blanked -/

/-- The spans that are blanked are those of the pieces that are. -/
theorem mem_blankedSpans {source : String} {s : Span} :
    s ∈ commentSpans source ++ unexpectedSpans source ↔
      ∃ l ∈ located source.toList, l.piece.isInert = true ∧ l.span = s := by
  rw [List.mem_append, commentSpans, unexpectedSpans, Lexed.unexpected, lex_eq]
  constructor
  · rintro (hcomment | hstray)
    · obtain ⟨l, hl, hspan⟩ := List.mem_filterMap.mp hcomment
      refine ⟨l, hl, ?_⟩
      obtain ⟨piece, start⟩ := l
      cases piece with
      | comment body => exact ⟨rfl, Option.some.inj hspan⟩
      | _ => cases hspan
    · obtain ⟨d, hd, rfl⟩ := List.mem_map.mp hstray
      obtain ⟨hmem, hcode⟩ := List.mem_filter.mp hd
      obtain ⟨l, hl, hfault, -, hsame⟩ := exists_of_mem_diagnostic? hmem
      obtain ⟨c, hc⟩ := exists_stray_of_unexpected hfault (of_decide_eq_true hcode)
      refine ⟨l, hl, ?_, hsame.symm⟩
      rw [hc]
      rfl
  · rintro ⟨⟨piece, start⟩, hl, hinert, rfl⟩
    cases piece with
    | comment body => exact Or.inl (List.mem_filterMap.mpr ⟨_, hl, rfl⟩)
    | stray c =>
        have hmem := List.mem_filterMap.mpr
          ⟨_, hl, show Located.diagnostic? ⟨.stray c, start⟩ = some _ from rfl⟩
        exact Or.inr (List.mem_map.mpr ⟨_, List.mem_filter.mpr ⟨hmem, rfl⟩, rfl⟩)
    | _ => cases hinert

/-- A byte is in one of the spans if it is one of a piece that is blanked. -/
theorem any_covers {source : String} (hsize : source.utf8ByteSize ≤ 2 ^ 32 - 1) (offset : Nat) :
    (commentSpans source ++ unexpectedSpans source).any (Span.covers offset) =
      (located source.toList).any (Located.blanksByte offset) := by
  rw [← byteSize_toList] at hsize
  have hcovers : ∀ l ∈ located source.toList,
      (l.span.covers offset = true ↔ l.start.offset ≤ offset ∧ offset < l.stop.offset) := by
    intro l hl
    rw [Span.covers, start_add_length_span hsize hl, toNat_start_span hsize hl, decide_eq_true_iff]
  rw [Bool.eq_iff_iff, List.any_eq_true, List.any_eq_true]
  constructor
  · rintro ⟨s, hs, hwithin⟩
    obtain ⟨l, hl, hinert, rfl⟩ := mem_blankedSpans.mp hs
    refine ⟨l, hl, ?_⟩
    rw [Located.blanksByte, hinert, Bool.true_and, decide_eq_true_iff]
    exact (hcovers l hl).mp hwithin
  · rintro ⟨l, hl, hblanks⟩
    rw [Located.blanksByte, Bool.and_eq_true, decide_eq_true_iff] at hblanks
    exact ⟨l.span, mem_blankedSpans.mpr ⟨l, hl, hblanks.1, rfl⟩, (hcovers l hl).mpr hblanks.2⟩

/-- **Blanking gives a text**, which is made piece by piece. -/
theorem blank?_eq {source : String} (hsize : source.utf8ByteSize ≤ 2 ^ 32 - 1) :
    blank? source = some (String.ofList (blankText source.toList)) := by
  have hmarked : (fun offset =>
      (commentSpans source ++ unexpectedSpans source).any (Span.covers offset)) =
      fun offset => (locate .origin (pieces source.toList)).any
        (Located.blanksByte (Place.origin.offset + offset)) := by
    funext offset
    rw [any_covers hsize, located]
    show _ = List.any _ (Located.blanksByte (0 + offset))
    rw [Nat.zero_add]
  have hbytes : (encode (blankText source.toList)).toByteArray =
      (String.ofList (blankText source.toList)).toByteArray := rfl
  rw [blank?, hmarked, bytes_eq_encode, encode_blankText, hbytes, fromUTF8?_toByteArray]

/-! ## Lexing a blanked source -/

/-- The strings that are not closed are pieces of the text. -/
theorem unterminated_ofText (text : List Char) :
    (Lexed.ofText text).unterminated = (located text).filterMap Located.unterminated? :=
  List.filter_filterMap

/-- **Comments and bad characters leave no trace**: in the blanked source there are the same tokens,
and what is reported about it is the string that is not closed, if there is one. Blanking once more
changes nothing. -/
theorem lex_blanked (source : String) (hsize : source.utf8ByteSize < 2 ^ 32 - 1) :
    ∃ blanked, blank? source = some blanked ∧
      (lex blanked).tokens = (lex source).tokens ∧
      (lex blanked).diagnostics = (lex source).unterminated ∧
      (lex source).unterminated.length ≤ 1 ∧
      blank? blanked = some blanked := by
  have hplace := after_blankText source.toList .origin
  obtain ⟨htokens, hfaults⟩ := locate_blankText source.toList .origin
  have hblanked : String.toList (.ofList (blankText source.toList)) = blankText source.toList :=
    String.toList_ofList
  refine ⟨_, blank?_eq (Nat.le_of_lt hsize), ?_, ?_, ?_, ?_⟩
  · rw [lex_eq, lex_eq, hblanked, Lexed.ofText, Lexed.ofText, hplace, located, pieces_blankText,
      htokens]
    rfl
  · rw [lex_eq, lex_eq, hblanked, unterminated_ofText, located, ← hfaults, Lexed.ofText, located,
      pieces_blankText]
  · rw [lex_eq, unterminated_ofText]
    exact length_unterminated_le source.toList .origin
  · have hbytes : byteSize (blankText source.toList) = byteSize source.toList := by
      have hoffset : 0 + byteSize (blankText source.toList) = 0 + byteSize source.toList :=
        congrArg Place.offset hplace
      rwa [Nat.zero_add, Nat.zero_add] at hoffset
    have hagain : (String.ofList (blankText source.toList)).utf8ByteSize ≤ 2 ^ 32 - 1 := by
      rw [utf8ByteSize_ofList, hbytes, byteSize_toList]
      exact Nat.le_of_lt hsize
    rw [blank?_eq hagain, hblanked, blankText, blankedPieces_blankText, ← blankText]

/-- An operator, a slash and a number keep what stood behind them apart; `é` makes two spaces, and
the string at the end is not closed. -/
theorem blanked_mixed :
    "!@= /é/ 1#.5 //\té\n\"a//".utf8ByteSize < 2 ^ 32 - 1 ∧
      blank? "!@= /é/ 1#.5 //\té\n\"a//" = some "! = /  / 1 .5      \n\"a//" ∧
      (lex "! = /  / 1 .5      \n\"a//").tokens = (lex "!@= /é/ 1#.5 //\té\n\"a//").tokens ∧
      (lex "! = /  / 1 .5      \n\"a//").diagnostics =
        (lex "!@= /é/ 1#.5 //\té\n\"a//").unterminated ∧
      (lex "!@= /é/ 1#.5 //\té\n\"a//").unterminated.length = 1 ∧
      blank? "! = /  / 1 .5      \n\"a//" = some "! = /  / 1 .5      \n\"a//" := by
  have hsize : "!@= /é/ 1#.5 //\té\n\"a//".utf8ByteSize < 2 ^ 32 - 1 := by decide
  obtain ⟨blanked, hblank, htokens, hfaults, -, hagain⟩ := lex_blanked _ hsize
  have hblanked : blank? "!@= /é/ 1#.5 //\té\n\"a//" = some "! = /  / 1 .5      \n\"a//" := by
    decide +kernel
  rw [hblanked] at hblank
  cases hblank
  exact ⟨hsize, hblanked, htokens, hfaults, by decide +kernel, hagain⟩

end LoxLexer
