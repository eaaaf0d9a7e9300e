import LoxLexer.Proofs.Reconstruction

/-!
# Sources put together from lines

Nothing but a string goes on over the end of a line. So a source that is put together from two
texts, with a line feed between, holds what the two texts hold, the second text's tokens and
diagnostics moved by the first one's bytes and lines (`lex_append_lineFeed`). The first text must
not end in an open string, or the string would go on in the second.

The reason is that each piece of the first text fits in front of a line feed just as it fits at the
end of the text (`Piece.Fits.append_lineFeed`), and that reading does not depend on the place where
it starts (`locate_moved`).
-/

set_option autoImplicit false

namespace LoxLexer

/-! ## Definitions -/

/-- The place with so many bytes and lines more in front of it. -/
def Place.moved (bytes lines : Nat) (place : Place) : Place :=
  ⟨place.offset + bytes, place.line + lines⟩

def Located.moved (bytes lines : Nat) (l : Located) : Located :=
  { l with start := l.start.moved bytes lines }

/-- The span that starts `bytes` later. -/
def Span.moved (bytes : Nat) (s : Span) : Span := { s with start := clip (s.start.toNat + bytes) }

/-- The same token, `bytes` and `lines` further on. -/
def Token.moved (bytes lines : Nat) (t : Token) : Token :=
  { t with line := clip (t.line.toNat + lines), span := t.span.moved bytes }

/-- The same diagnostic, `bytes` and `lines` further on. -/
def Diagnostic.moved (bytes lines : Nat) (d : Diagnostic) : Diagnostic :=
  { d with line := clip (d.line.toNat + lines), span := d.span.moved bytes }

/-! ## Reading from another place -/

variable {bytes lines : Nat} {l : Located}

theorem Place.after_moved (place : Place) (text : List Char) :
    (place.moved bytes lines).after text = (place.after text).moved bytes lines := by
  simp only [Place.after, Place.moved, Place.mk.injEq]
  omega

/-- **The same pieces from another place on** are all moved alike. -/
theorem locate_moved (place : Place) (pieces : List Piece) :
    locate (place.moved bytes lines) pieces =
      (locate place pieces).map (Located.moved bytes lines) := by
  induction pieces generalizing place with
  | nil => simp
  | cons piece pieces ih =>
      rw [locate_cons, locate_cons, Place.after_moved, ih]
      rfl

theorem line_moved (l : Located) :
    (l.moved bytes lines).line = clip (l.line.toNat + lines) := by
  have hstop : (l.moved bytes lines).stop = l.stop.moved bytes lines :=
    Place.after_moved l.start l.piece.text
  rw [Located.line, hstop, Located.line, clip_add]
  rfl

/-- A span is as long at another place, if it fits there. -/
theorem span_moved (h : l.start.offset + byteSize l.piece.text + bytes ≤ 2 ^ 32 - 1) :
    (l.moved bytes lines).span = l.span.moved bytes := by
  have hhere : l.start.offset + byteSize l.piece.text ≤ 2 ^ 32 - 1 := by omega
  have hthere : l.start.offset + bytes + byteSize l.piece.text ≤ 2 ^ 32 - 1 := by omega
  have hstart : clip ((clip l.start.offset).toNat + bytes) =
      UInt32.ofNat (l.start.offset + bytes) := by
    rw [clip_add, clip_eq_ofNat (by omega)]
  calc
    (l.moved bytes lines).span
      = ⟨UInt32.ofNat (l.start.offset + bytes), UInt32.ofNat (byteSize l.piece.text)⟩ :=
        Span.covering_eq_ofNat hthere
    _ = ⟨clip ((clip l.start.offset).toNat + bytes), UInt32.ofNat (byteSize l.piece.text)⟩ := by
        rw [hstart]
    _ = l.span.moved bytes := by
        rw [Located.span, Span.moved, Span.covering_eq_ofNat hhere,
          ← clip_eq_ofNat (Nat.le_of_add_right_le hhere)]

theorem token?_moved (h : l.start.offset + byteSize l.piece.text + bytes ≤ 2 ^ 32 - 1) :
    (l.moved bytes lines).token? = l.token?.map (Token.moved bytes lines) := by
  have htoken (kind : Kind) (literal : Literal) :
      (l.moved bytes lines).toToken kind literal =
        (l.toToken kind literal).moved bytes lines := by
    rw [Located.toToken, line_moved, span_moved h]
    rfl
  obtain ⟨piece, start⟩ := l
  cases piece with
  | punctuator p => exact congrArg some (htoken _ _)
  | string body => exact congrArg some (htoken _ _)
  | numeral n => exact congrArg some (htoken _ _)
  | _ => rfl

theorem diagnostic?_moved (h : l.start.offset + byteSize l.piece.text + bytes ≤ 2 ^ 32 - 1) :
    (l.moved bytes lines).diagnostic? = l.diagnostic?.map (Diagnostic.moved bytes lines) := by
  have hfault (template : Template) (arguments : List String) :
      Diagnostic.ofTemplate template arguments (l.moved bytes lines).line
          (l.moved bytes lines).span =
        (Diagnostic.ofTemplate template arguments l.line l.span).moved bytes lines := by
    rw [line_moved, span_moved h]
    rfl
  obtain ⟨piece, start⟩ := l
  cases piece with
  | stray c => exact congrArg some (hfault _ _)
  | unclosed body => exact congrArg some (hfault _ _)
  | _ => rfl

/-- **Picking from moved pieces** moves what is picked. -/
theorem filterMap_moved {α : Type} {pick : Located → Option α} {move : α → α}
    {items : List Located}
    (hpick : ∀ l ∈ items, pick (l.moved bytes lines) = (pick l).map move) :
    (items.map (Located.moved bytes lines)).filterMap pick = (items.filterMap pick).map move := by
  rw [List.filterMap_map, List.map_filterMap]
  exact List.filterMap_congr hpick

theorem eofToken_moved (place : Place) :
    eofToken (place.moved bytes lines) = (eofToken place).moved bytes lines := by
  rw [Token.moved, Span.moved]
  simp only [eofToken, Span.empty, clip_add]
  rfl

/-! ## The end of a line -/

variable {piece : Piece} {rest behind text : List Char}

/-- **What ends at the end of a text ends at a line feed.** -/
theorem Piece.Fits.append_lineFeed (h : piece.Fits rest) (hclosed : ∀ body, piece ≠ .unclosed body)
    (behind : List Char) : piece.Fits (rest ++ '\n' :: behind) := by
  -- what comes next is what came next, or the line feed
  have hhead {p : Char → Prop} (hfeed : p '\n') (hrest : ∀ c, rest.head? = some c → p c) :
      ∀ c, (rest ++ '\n' :: behind).head? = some c → p c := by
    intro c hc
    cases rest with
    | nil => exact Option.some.inj hc ▸ hfeed
    | cons d rest => exact hrest c hc
  cases piece with
  | punctuator p =>
      have hequal (hlonger : p.withEqual? ≠ none) :=
        hhead (p := (· ≠ '=')) (by decide) fun c hc heq => h.1 hlonger (heq ▸ hc)
      have hsecond (hslash : p = .slash) :=
        hhead (p := (· ≠ '/')) (by decide) fun c hc heq => h.2 hslash (heq ▸ hc)
      exact ⟨fun hlonger hc => hequal hlonger _ hc rfl, fun hslash hc => hsecond hslash _ hc rfl⟩
  | string body => exact h
  | numeral n =>
      refine ⟨h.wellFormed, hhead (by decide) h.halts, ?_⟩
      intro hinteger d more htext
      match rest, htext, h.no_point hinteger with
      | [], htext, _ => exact absurd (List.head_eq_of_cons_eq htext) (by decide)
      | [point], htext, _ =>
          have hd := List.head_eq_of_cons_eq (List.tail_eq_of_cons_eq htext)
          rw [← hd]
          rfl
      | point :: e :: rest, htext, hno =>
          have hpoint : point = '.' := List.head_eq_of_cons_eq htext
          have he : e = d := List.head_eq_of_cons_eq (List.tail_eq_of_cons_eq htext)
          exact hno d rest (by rw [hpoint, he])
  | blank c => exact h
  | comment body => exact ⟨h.1, hhead (by decide) h.2⟩
  | stray c => exact h
  | unclosed body => exact absurd rfl (hclosed body)

/-- **Reading over the end of a line**: it is a piece of its own, and what is in front of it is read
as if nothing were behind. -/
theorem pieces_append_lineFeed (hclosed : ∀ body, .unclosed body ∉ pieces text)
    (behind : List Char) :
    pieces (text ++ '\n' :: behind) = pieces text ++ .blank '\n' :: pieces behind := by
  induction text using text_induction with
  | nil =>
      have hblank : (Piece.blank '\n').Fits behind := by
        show isBlank '\n'
        decide
      rw [pieces_nil, List.nil_append]
      exact pieces_append hblank
  | piece piece rest hfits ih =>
      rw [pieces_append hfits] at hclosed ⊢
      have hpiece : ∀ body, piece ≠ .unclosed body := fun body heq =>
        hclosed body (heq ▸ List.mem_cons_self ..)
      have hrest := ih fun body hmem => hclosed body (List.mem_cons_of_mem piece hmem)
      rw [List.append_assoc, pieces_append (hfits.append_lineFeed hpiece behind), hrest]
      rfl

/-- Where no open string is reported, there is none. -/
theorem unclosed_not_mem_pieces
    (hnone : ∀ d ∈ (Lexed.ofText text).diagnostics, d.code ≠ 1002) (body : List Char) :
    .unclosed body ∉ pieces text := by
  intro hmem
  rw [← map_piece_locate .origin (pieces text)] at hmem
  obtain ⟨⟨piece, start⟩, hl, hpiece⟩ := List.mem_map.mp hmem
  dsimp only at hpiece
  subst hpiece
  exact hnone _ (List.mem_filterMap.mpr ⟨_, hl, rfl⟩) rfl

/-! ## Two texts -/

/-- The pieces of two texts with a line feed between. -/
theorem located_append_lineFeed (hclosed : ∀ body, .unclosed body ∉ pieces text)
    (behind : List Char) :
    located (text ++ '\n' :: behind) =
      located text ++ ⟨.blank '\n', Place.origin.after text⟩ ::
        (located behind).map (Located.moved (byteSize text + 1) (text.count '\n' + 1)) := by
  have hplace : (Place.origin.after text).after (Piece.text (.blank '\n')) =
      Place.origin.moved (byteSize text + 1) (text.count '\n' + 1) := by
    simp [Place.after, Place.moved, Place.origin, Piece.text, Nat.add_assoc,
      show '\n'.utf8Size = 1 from rfl]
  rw [located, pieces_append_lineFeed hclosed, locate_append, flatMap_text_pieces, locate_cons,
    hplace, locate_moved]
  rfl

/-- **A source of two texts with a line feed between** holds what the first one holds, but for its
end, and behind it what the second one holds, moved to where it is. Sources of this size have room
for all that is moved, so that nothing is clipped. -/
theorem lex_append_lineFeed (a b : String) (hclosed : ∀ d ∈ (lex a).diagnostics, d.code ≠ 1002)
    (hsize : a.utf8ByteSize + 1 + b.utf8ByteSize < 2 ^ 32 - 1) :
    let bytes := a.utf8ByteSize + 1
    let lines := a.toList.count '\n' + 1
    lex (a ++ "\n" ++ b) =
      { tokens := (lex a).tokens.filter (fun t => !t.isEof) ++
          (lex b).tokens.map (Token.moved bytes lines)
        diagnostics := (lex a).diagnostics ++
          (lex b).diagnostics.map (Diagnostic.moved bytes lines) } := by
  intro bytes lines
  have htext : (a ++ "\n" ++ b).toList = a.toList ++ '\n' :: b.toList := by simp
  rw [lex_eq a] at hclosed
  have hlocated := located_append_lineFeed (unclosed_not_mem_pieces hclosed) b.toList
  rw [byteSize_toList] at hlocated
  -- all that is moved fits where it is moved to
  have hfits : ∀ l ∈ located b.toList,
      l.start.offset + byteSize l.piece.text + bytes ≤ 2 ^ 32 - 1 := by
    intro l hl
    have hle := offset_of_mem_located hl
    rw [byteSize_toList] at hle
    omega
  have htokens : ((located b.toList).map (Located.moved bytes lines)).filterMap Located.token? =
      ((located b.toList).filterMap Located.token?).map (Token.moved bytes lines) :=
    filterMap_moved fun l hl => token?_moved (hfits l hl)
  have hfaults :
      ((located b.toList).map (Located.moved bytes lines)).filterMap Located.diagnostic? =
        ((located b.toList).filterMap Located.diagnostic?).map (Diagnostic.moved bytes lines) :=
    filterMap_moved fun l hl => diagnostic?_moved (hfits l hl)
  have hstop : Place.origin.after (a.toList ++ '\n' :: b.toList) =
      (Place.origin.after b.toList).moved bytes lines := by
    simp only [Place.after, Place.moved, byteSize_append, byteSize_cons, byteSize_toList,
      List.count_append, List.count_cons_self, Place.mk.injEq, show '\n'.utf8Size = 1 from rfl]
    omega
  rw [lex_eq, lex_eq, lex_eq, htext, filter_isEof]
  simp only [Lexed.ofText, hlocated, List.filterMap_append, Lexed.mk.injEq]
  refine ⟨?_, ?_⟩
  · rw [List.filterMap_cons_none rfl, htokens, hstop, eofToken_moved, List.map_append,
      List.append_assoc]
    rfl
  · rw [List.filterMap_cons_none rfl, hfaults]

/-- A numeral and its point in front of the end of a line, a string that stays open behind it. -/
theorem two_lines_mixed :
    (∀ d ∈ (lex "@ 12.").diagnostics, d.code ≠ 1002) ∧
      "@ 12.".utf8ByteSize + 1 + "3 \"".utf8ByteSize < 2 ^ 32 - 1 ∧
      lex ("@ 12." ++ "\n" ++ "3 \"") =
        { tokens := (lex "@ 12.").tokens.filter (fun t => !t.isEof) ++
            (lex "3 \"").tokens.map (Token.moved 6 1)
          diagnostics := (lex "@ 12.").diagnostics ++
            (lex "3 \"").diagnostics.map (Diagnostic.moved 6 1) } := by
  have hclosed : ∀ d ∈ (lex "@ 12.").diagnostics, d.code ≠ 1002 := by decide +kernel
  have hsize : "@ 12.".utf8ByteSize + 1 + "3 \"".utf8ByteSize < 2 ^ 32 - 1 := by decide
  exact ⟨hclosed, hsize, lex_append_lineFeed _ _ hclosed hsize⟩

end LoxLexer
