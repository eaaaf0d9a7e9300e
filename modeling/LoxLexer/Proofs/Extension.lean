import LoxLexer.Proofs.Reconstruction

/-!
# Sources that go on

A text may be put behind a source. What the source holds is then the same up to its end, or nearly
so: the last piece may go on in the new text, and a number in front of a last point may take the
point and digits behind it. Nothing else changes (`lex_extended`): tokens with two bytes of the
source behind them are settled, and so are all unexpected characters.

Up to some piece the source and the longer one are read alike. The first piece that does not fit in
front of the longer rest is the last one of the source, but for a point (`Piece.Fits.append`), and
the piece that is read in its place goes on to the end of the source at least (`reaches_over`).
-/

set_option autoImplicit false

namespace LoxLexer

/-! ## Definitions -/

/-- The span ends within the first `size` bytes and leaves at least `bytes` of them behind it. -/
def Span.leaves (bytes size : Nat) (s : Span) : Bool :=
  decide (s.start.toNat + s.length.toNat + bytes ≤ size)

namespace Lexed

/-- The tokens, the end left out, that have two of the first `size` bytes behind them. -/
def settledTokens (size : Nat) (lexed : Lexed) : List Token :=
  (lexed.tokens.filter fun t => !t.isEof).filter fun t => t.span.leaves 2 size

/-- The unexpected characters among the first `size` bytes. -/
def unexpectedWithin (size : Nat) (lexed : Lexed) : List Diagnostic :=
  lexed.unexpected.filter fun d => d.span.leaves 0 size

end Lexed

/-- The piece ends so late that text behind the first `size` bytes can make a difference: a token
in the last two of them or behind, and a stray character behind all of them. -/
def Located.Unsettled (size : Nat) (l : Located) : Prop :=
  size < l.stop.offset + 2 ∧ ((∃ c, l.piece = .stray c) → size < l.stop.offset)

/-! ## Pieces in front of more text -/

variable {piece other : Piece} {text rest more after : List Char} {place : Place} {l : Located}

/-- **Two characters decide** where a piece ends, and a single one unless it is a point. -/
theorem Piece.Fits.append (h : piece.Fits rest) (hne : rest ≠ []) (hpoint : rest ≠ ['.'])
    (more : List Char) : piece.Fits (rest ++ more) := by
  obtain ⟨c, behind, rfl⟩ := List.exists_cons_of_ne_nil hne
  cases piece with
  | punctuator p => exact h
  | string body => exact h
  | numeral n =>
      refine ⟨h.wellFormed, h.halts, ?_⟩
      intro hinteger d later htext
      cases behind with
      | nil =>
          have hc : c = '.' := List.head_eq_of_cons_eq htext
          exact absurd (by rw [hc]) hpoint
      | cons e behind =>
          have hc : c = '.' := List.head_eq_of_cons_eq htext
          have he : e = d := List.head_eq_of_cons_eq (List.tail_eq_of_cons_eq htext)
          exact h.no_point hinteger d behind (by rw [hc, he])
  | blank c => exact h
  | comment body => exact h
  | stray c => exact h
  | unclosed body => cases h.2

/-- What ends in front of some text ends in front of a part of it, if there is one. -/
theorem Piece.Fits.of_append (h : piece.Fits (rest ++ more)) (hne : rest ≠ []) :
    piece.Fits rest := by
  obtain ⟨c, behind, rfl⟩ := List.exists_cons_of_ne_nil hne
  cases piece with
  | punctuator p => exact h
  | string body => exact h
  | numeral n =>
      refine ⟨h.wellFormed, h.halts, ?_⟩
      intro hinteger d later htext
      exact h.no_point hinteger d (later ++ more) (by rw [htext]; rfl)
  | blank c => exact h
  | comment body => exact h
  | stray c => exact h
  | unclosed body => cases h.2

/-- A piece that begins with a stray character is that character. -/
theorem Piece.Fits.eq_stray {c : Char} (h : piece.Fits rest) (hc : Opening.ofChar c = .nothing)
    (hhead : (piece.text ++ rest).head? = some c) : piece = .stray c := by
  obtain ⟨d, behind, htext, hnext⟩ := nextPiece_of_fits h
  rw [htext] at hhead
  rw [Option.some.inj hhead, nextPiece, hc] at hnext
  exact (congrArg Prod.fst hnext).symm

/-- **A piece that goes on in more text** is replaced by one that goes on to the end of what was
there before at least, and that is no stray character. -/
theorem reaches_over (h : piece.Fits rest) (hnot : ¬ piece.Fits (rest ++ more))
    (hother : other.Fits after) (htext : other.text ++ after = piece.text ++ rest ++ more) :
    byteSize (piece.text ++ rest) ≤ byteSize other.text ∧ ∀ c, other ≠ .stray c := by
  constructor
  · rcases List.append_eq_append_iff.mp htext with ⟨left, hleft, hafter⟩ | ⟨extra, hextra, -⟩
    · by_cases hnil : left = []
      · rw [hleft, hnil, List.append_nil]
      · -- the other piece would have been read without the new text as well
        have hfits : other.Fits left := (hafter ▸ hother).of_append hnil
        have hpieces : piece :: pieces rest = other :: pieces left := by
          rw [← pieces_append h, hleft, pieces_append hfits]
        obtain ⟨rfl, -⟩ := List.cons_eq_cons.mp hpieces
        rw [← List.append_cancel_left hleft] at hafter
        exact absurd (hafter ▸ hother) hnot
    · rw [hextra, byteSize_append _ extra]
      exact Nat.le_add_right _ _
  · rintro c rfl
    have hhead : (piece.text ++ rest).head? = some c := by
      have hne : piece.text ++ rest ≠ [] := List.append_ne_nil_of_left_ne_nil h.text_ne_nil rest
      rw [← List.head?_append_of_ne_nil _ hne, ← htext]
      rfl
    rw [h.eq_stray hother hhead] at hnot
    exact hnot hother

/-! ## Reading up to where the texts differ -/

/-- A piece ends behind the place from which on it was read. -/
theorem offset_lt_stop (h : l ∈ locate place (pieces text)) : place.offset < l.stop.offset := by
  obtain ⟨done, rest, -, hfits, hstart⟩ := mem_locate_pieces text h
  have hpos := byteSize_pos hfits.text_ne_nil
  have hstop : l.stop.offset = place.offset + byteSize done + byteSize l.piece.text := by
    rw [Located.stop, hstart]
    rfl
  omega

/-- In front of text that it goes on in, a piece is unsettled, and so is what is behind it. -/
theorem unsettled_of_not_fits (h : piece.Fits rest) (hnot : ¬ piece.Fits (rest ++ more)) :
    ∀ l ∈ locate place (pieces (piece.text ++ rest)),
      l.Unsettled (place.offset + byteSize (piece.text ++ rest)) := by
  have hshort : rest = [] ∨ rest = ['.'] := by
    by_cases hnil : rest = []
    · exact Or.inl hnil
    · by_cases hpoint : rest = ['.']
      · exact Or.inr hpoint
      · exact absurd (h.append hnil hpoint more) hnot
  have hstray : ∀ c, piece ≠ .stray c := by
    rintro c rfl
    exact hnot h
  rw [pieces_append h, locate_cons]
  rcases hshort with rfl | rfl
  · intro l hl
    rw [pieces_nil, locate_nil] at hl
    rw [List.mem_singleton.mp hl, List.append_nil]
    refine ⟨?_, fun ⟨c, hc⟩ => absurd hc (hstray c)⟩
    exact Nat.lt_add_of_pos_right (by decide)
  · have hpieces : pieces ['.'] = [.punctuator .dot] := by
      have hfits : (Piece.punctuator .dot).Fits [] := by
        constructor <;> exact nofun
      have hdot := pieces_append hfits
      rwa [pieces_nil] at hdot
    have hsize : byteSize (piece.text ++ ['.']) = byteSize piece.text + 1 := byteSize_append _ _
    intro l hl
    rw [hpieces, locate_cons, locate_nil] at hl
    rw [hsize]
    rcases List.mem_cons.mp hl with rfl | hdot
    · refine ⟨?_, fun ⟨c, hc⟩ => absurd hc (hstray c)⟩
      show _ < place.offset + byteSize piece.text + 2
      omega
    · rw [List.mem_singleton.mp hdot]
      refine ⟨?_, fun ⟨c, hc⟩ => by cases hc⟩
      show _ < place.offset + byteSize piece.text + 1 + 2
      omega

/-- What is read in its place is unsettled as well. -/
theorem unsettled_of_reaching_over (h : piece.Fits rest) (hnot : ¬ piece.Fits (rest ++ more)) :
    ∀ l ∈ locate place (pieces (piece.text ++ rest ++ more)),
      l.Unsettled (place.offset + byteSize (piece.text ++ rest)) := by
  obtain ⟨c, behind, htext⟩ := List.exists_cons_of_ne_nil
    (l := piece.text ++ rest ++ more) (by simp [h.text_ne_nil])
  obtain ⟨hle, hstray⟩ := reaches_over h hnot (fits_nextPiece c behind)
    ((text_nextPiece c behind).trans htext.symm)
  intro l hl
  rw [htext, pieces_cons, locate_cons] at hl
  rcases List.mem_cons.mp hl with rfl | hlater
  · refine ⟨?_, fun ⟨d, hd⟩ => absurd hd (hstray d)⟩
    show _ < place.offset + byteSize (nextPiece c behind).1.text + 2
    omega
  · have hlt : place.offset + byteSize (nextPiece c behind).1.text < l.stop.offset :=
      offset_lt_stop hlater
    exact ⟨by omega, fun _ => by omega⟩

/-- **A text and a longer one are read alike** up to where all is unsettled. -/
theorem locate_extended (text more : List Char) :
    ∀ place : Place, ∃ same cut longer,
      locate place (pieces text) = same ++ cut ∧
      locate place (pieces (text ++ more)) = same ++ longer ∧
      ∀ l ∈ cut ++ longer, l.Unsettled (place.offset + byteSize text) := by
  induction text using text_induction with
  | nil =>
      intro place
      refine ⟨[], [], locate place (pieces more), ?_, rfl, ?_⟩
      · rw [pieces_nil, locate_nil]
        rfl
      · intro l hl
        have hlt := offset_lt_stop hl
        rw [byteSize_nil]
        exact ⟨by omega, fun _ => hlt⟩
  | piece piece rest hfits ih =>
      intro place
      by_cases hgoes : piece.Fits (rest ++ more)
      · obtain ⟨same, cut, longer, hcut, hlonger, hunsettled⟩ := ih (place.after piece.text)
        refine ⟨⟨piece, place⟩ :: same, cut, longer, ?_, ?_, ?_⟩
        · rw [pieces_append hfits, locate_cons, hcut, List.cons_append]
        · rw [List.append_assoc, pieces_append hgoes, locate_cons, hlonger, List.cons_append]
        · rw [byteSize_append, ← Nat.add_assoc]
          exact hunsettled
      · refine ⟨[], _, _, rfl, rfl, ?_⟩
        intro l hl
        rcases List.mem_append.mp hl with hcut | hlonger
        · exact unsettled_of_not_fits hfits hgoes l hcut
        · exact unsettled_of_reaching_over hfits hgoes l hlonger

/-! ## What is settled -/

variable {items : List Located} {size : Nat}

/-- No token among unsettled pieces is settled. -/
theorem settledTokens_of_unsettled
    (hspan : ∀ l ∈ items, l.span.start.toNat + l.span.length.toNat = l.stop.offset)
    (hunsettled : ∀ l ∈ items, l.Unsettled size) :
    ((items.filterMap Located.token?).filter fun t => t.span.leaves 2 size) = [] := by
  rw [List.filter_eq_nil_iff]
  intro t ht hleaves
  obtain ⟨l, hl, -, hsame⟩ := exists_of_mem_token? ht
  have hle := of_decide_eq_true hleaves
  rw [hsame, hspan l hl] at hle
  have hlt := (hunsettled l hl).1
  omega

/-- Nor is there an unexpected character among the first bytes. -/
theorem unexpectedWithin_of_unsettled
    (hspan : ∀ l ∈ items, l.span.start.toNat + l.span.length.toNat = l.stop.offset)
    (hunsettled : ∀ l ∈ items, l.Unsettled size) :
    ((items.filterMap Located.diagnostic?).filter fun d => d.code = 1001).filter
      (fun d => d.span.leaves 0 size) = [] := by
  rw [List.filter_eq_nil_iff]
  intro d hd hleaves
  obtain ⟨hmem, hcode⟩ := List.mem_filter.mp hd
  obtain ⟨l, hl, hfault, -, hsame⟩ := exists_of_mem_diagnostic? hmem
  have hlt := (hunsettled l hl).2 (exists_stray_of_unexpected hfault (of_decide_eq_true hcode))
  have hle := of_decide_eq_true hleaves
  rw [hsame, hspan l hl] at hle
  omega

/-- All that is unexpected in a text is among its bytes. -/
theorem unexpectedWithin_size (hsize : byteSize text ≤ 2 ^ 32 - 1) :
    (Lexed.ofText text).unexpectedWithin (byteSize text) = (Lexed.ofText text).unexpected := by
  rw [Lexed.unexpectedWithin, List.filter_eq_self]
  intro d hd
  obtain ⟨l, hl, -, -, hsame⟩ := exists_of_mem_diagnostic? (List.mem_filter.mp hd).1
  refine decide_eq_true ?_
  rw [hsame, start_add_length_span hsize hl]
  exact offset_of_mem_located hl

/-- **Text behind a source makes a difference at its end only**: tokens with two bytes of the source
behind them are the same, and so are the unexpected characters of the source. -/
theorem lex_extended (source more : String)
    (hsize : source.utf8ByteSize + more.utf8ByteSize < 2 ^ 32 - 1) :
    (lex source).settledTokens source.utf8ByteSize =
        (lex (source ++ more)).settledTokens source.utf8ByteSize ∧
      (lex source).unexpected =
        (lex (source ++ more)).unexpectedWithin source.utf8ByteSize := by
  obtain ⟨size, hbytes⟩ : ∃ size, byteSize source.toList = size := ⟨_, rfl⟩
  have hlonger : byteSize (source.toList ++ more.toList) ≤ 2 ^ 32 - 1 := by
    rw [byteSize_append, byteSize_toList, byteSize_toList]
    exact Nat.le_of_lt hsize
  have hshorter : byteSize source.toList ≤ 2 ^ 32 - 1 := by
    rw [byteSize_append] at hlonger
    omega
  obtain ⟨same, cut, longer, hcut, hmore, hunsettled⟩ :=
    locate_extended source.toList more.toList .origin
  have hcut' : located source.toList = same ++ cut := hcut
  have hmore' : located (source.toList ++ more.toList) = same ++ longer := hmore
  have hsum : Place.origin.offset + byteSize source.toList = size := by
    rw [hbytes]
    exact Nat.zero_add size
  rw [hsum] at hunsettled
  rw [← byteSize_toList, hbytes]
  have hspanCut : ∀ l ∈ cut, l.span.start.toNat + l.span.length.toNat = l.stop.offset := fun l hl =>
    start_add_length_span hshorter (hcut' ▸ List.mem_append_right same hl)
  have hspanLonger : ∀ l ∈ longer, l.span.start.toNat + l.span.length.toNat = l.stop.offset :=
    fun l hl => start_add_length_span hlonger (hmore' ▸ List.mem_append_right same hl)
  obtain ⟨hunsettledCut, hunsettledLonger⟩ := List.forall_mem_append.mp hunsettled
  rw [lex_eq, lex_eq, String.toList_append]
  constructor
  · rw [Lexed.settledTokens, Lexed.settledTokens, filter_isEof, filter_isEof, hcut', hmore',
      List.filterMap_append, List.filterMap_append, List.filter_append, List.filter_append,
      settledTokens_of_unsettled hspanCut hunsettledCut,
      settledTokens_of_unsettled hspanLonger hunsettledLonger]
  · rw [← unexpectedWithin_size hshorter, hbytes]
    simp only [Lexed.unexpectedWithin, Lexed.unexpected, Lexed.ofText, hcut', hmore',
      List.filterMap_append, List.filter_append,
      unexpectedWithin_of_unsettled hspanCut hunsettledCut,
      unexpectedWithin_of_unsettled hspanLonger hunsettledLonger]

/-- A number takes the point behind it if a digit is put behind the point. -/
theorem extended_point :
    "=@12 1.".utf8ByteSize + "5".utf8ByteSize < 2 ^ 32 - 1 ∧
      ((lex "=@12 1.").settledTokens 7).map Token.lexeme = ["=", "12"] ∧
      (lex "=@12 1.").settledTokens 7 = (lex ("=@12 1." ++ "5")).settledTokens 7 ∧
      (lex "=@12 1.").unexpected = (lex ("=@12 1." ++ "5")).unexpectedWithin 7 :=
  ⟨by decide, by decide +kernel, lex_extended "=@12 1." "5" (by decide)⟩

/-- So one byte behind a token is not enough. -/
example : (∃ t ∈ (lex "1.").tokens, t.span.leaves 1 2) ∧
    ¬ ∃ t ∈ (lex ("1." ++ "5")).tokens, t.span.leaves 1 2 := by
  decide +kernel

end LoxLexer
