import LoxLexer.Proofs.Composition

/-!
# Restarting a scan

A scan carries nothing from one piece to the next but the place it has come to. So it can be stopped
in front of anything that it finds, and started again on the rest of the source: what is found then
is what the whole scan finds from there on, at places counted from there (`lex_restart`).

The reason is that pieces do not depend on the ones in front of them (`pieces_behind`). What the
whole scan finds behind a cut is then what is found in the rest, moved (`ofText_eq_moved`), and
nothing in front of the cut starts at or behind it (`start_lt_of_mem_locate`).
-/

set_option autoImplicit false

namespace LoxLexer

/-! ## Definitions -/

/-- The span that starts `bytes` earlier. -/
def Span.movedBack (bytes : Nat) (s : Span) : Span :=
  { s with start := UInt32.ofNat (s.start.toNat - bytes) }

/-- The same token, `bytes` and `lines` further in front. -/
def Token.movedBack (bytes lines : Nat) (t : Token) : Token :=
  { t with line := UInt32.ofNat (t.line.toNat - lines), span := t.span.movedBack bytes }

/-- The same diagnostic, `bytes` and `lines` further in front. -/
def Diagnostic.movedBack (bytes lines : Nat) (d : Diagnostic) : Diagnostic :=
  { d with line := UInt32.ofNat (d.line.toNat - lines), span := d.span.movedBack bytes }

namespace Lexed

/-- A token, which may be the end, or a diagnostic starts at a position. -/
def StartsAt (lexed : Lexed) (position : UInt32) : Prop :=
  (∃ t ∈ lexed.tokens, t.span.start = position) ∨ ∃ d ∈ lexed.diagnostics, d.span.start = position

/-- What starts at a position or behind it, as it is seen from there; in front of the position there
are `lines` line feeds. -/
def behind (lexed : Lexed) (position : UInt32) (lines : Nat) : Lexed where
  tokens := (lexed.tokens.filter fun t => position ≤ t.span.start).map
    (Token.movedBack position.toNat lines)
  diagnostics := (lexed.diagnostics.filter fun d => position ≤ d.span.start).map
    (Diagnostic.movedBack position.toNat lines)

end Lexed

/-! ## Pieces behind other pieces -/

variable {text rest : List Char} {before later : List Piece} {piece : Piece} {l : Located}
  {place : Place}

/-- A text that has pieces begins with the first of them. -/
theorem of_pieces_eq_cons (h : pieces text = piece :: later) :
    ∃ rest, text = piece.text ++ rest ∧ piece.Fits rest ∧ pieces rest = later := by
  cases text with
  | nil =>
      rw [pieces_nil] at h
      cases h
  | cons c rest =>
      rw [pieces_cons] at h
      obtain ⟨rfl, rfl⟩ := List.cons_eq_cons.mp h
      exact ⟨(nextPiece c rest).2, (text_nextPiece c rest).symm, fits_nextPiece c rest, rfl⟩

/-- **Pieces do not depend on those in front of them.** -/
theorem pieces_behind (h : pieces text = before ++ later) :
    pieces (later.flatMap Piece.text) = later := by
  induction before generalizing text with
  | nil =>
      have hlater : pieces text = later := h
      rw [← hlater, flatMap_text_pieces]
  | cons piece before ih =>
      obtain ⟨rest, -, -, hrest⟩ := of_pieces_eq_cons h
      exact ih hrest

/-- The place of a piece is the one behind the pieces in front of it. -/
theorem exists_of_mem_locate {read : List Piece} (h : l ∈ locate place read) :
    ∃ before later, read = before ++ l.piece :: later ∧
      l.start = place.after (before.flatMap Piece.text) := by
  induction read generalizing place with
  | nil =>
      rw [locate_nil] at h
      cases h
  | cons piece read ih =>
      rw [locate_cons] at h
      rcases List.mem_cons.mp h with rfl | hlater
      · exact ⟨[], read, rfl, (Place.after_nil place).symm⟩
      · obtain ⟨before, later, rfl, hstart⟩ := ih hlater
        refine ⟨piece :: before, later, rfl, ?_⟩
        rw [hstart, List.flatMap_cons, Place.after_append]

/-- The pieces of a text that are in front of others start in front of where they end. -/
theorem start_lt_of_mem_locate (h : pieces text = before ++ later)
    (hl : l ∈ locate place before) :
    l.start.offset < place.offset + byteSize (before.flatMap Piece.text) := by
  obtain ⟨front, more, rfl, hstart⟩ := exists_of_mem_locate hl
  have hne : l.piece.text ≠ [] := by
    rw [List.append_assoc] at h
    have hbehind := pieces_behind h
    obtain ⟨rest, -, hfits, -⟩ := of_pieces_eq_cons hbehind
    exact hfits.text_ne_nil
  have hpos := byteSize_pos hne
  calc
    l.start.offset
      = place.offset + byteSize (front.flatMap Piece.text) := by rw [hstart]; rfl
    _ < place.offset + byteSize ((front ++ l.piece :: more).flatMap Piece.text) := by
        rw [List.flatMap_append, List.flatMap_cons, byteSize_append, byteSize_append]
        omega

/-! ## Where something starts -/

/-- **Something starts in front of a piece only**, or at the end of the text. -/
theorem exists_pieces_of_startsAt {position : UInt32} (hsize : byteSize text ≤ 2 ^ 32 - 1)
    (h : (Lexed.ofText text).StartsAt position) :
    ∃ before later, pieces text = before ++ later ∧
      byteSize (before.flatMap Piece.text) = position.toNat := by
  -- what stands for a piece starts where the piece does
  have hpiece (l : Located) (hl : l ∈ located text) (hstart : l.span.start = position) :
      ∃ before later, pieces text = before ++ later ∧
        byteSize (before.flatMap Piece.text) = position.toNat := by
    obtain ⟨before, later, hpieces, hplace⟩ := exists_of_mem_locate hl
    refine ⟨before, _, hpieces, ?_⟩
    rw [← hstart, toNat_start_span hsize hl, hplace]
    exact (Nat.zero_add _).symm
  rcases h with ⟨t, ht, hstart⟩ | ⟨d, hd, hstart⟩
  · rcases List.mem_append.mp ht with hinner | hlast
    · obtain ⟨l, hl, -, hspan⟩ := exists_of_mem_token? hinner
      exact hpiece l hl (hspan ▸ hstart)
    · refine ⟨pieces text, [], (List.append_nil _).symm, ?_⟩
      rw [flatMap_text_pieces, ← hstart, List.mem_singleton.mp hlast]
      show byteSize text = (clip (0 + byteSize text)).toNat
      rw [toNat_clip]
      omega
  · obtain ⟨l, hl, -, -, hspan⟩ := exists_of_mem_diagnostic? hd
    exact hpiece l hl (hspan ▸ hstart)

/-! ## What is found behind a cut -/

/-- Tokens and diagnostics start in the text and are on one of its lines. -/
theorem bounds_of_mem_located (h : l ∈ located text) :
    l.line.toNat ≤ 1 + text.count '\n' ∧ l.span.start.toNat ≤ byteSize text := by
  obtain ⟨done, rest, rfl, -, hstart⟩ := mem_located h
  obtain ⟨piece, start⟩ := l
  dsimp only at hstart ⊢
  subst hstart
  constructor
  · have hcount : (done ++ piece.text).count '\n' ≤ (done ++ (piece.text ++ rest)).count '\n' := by
      rw [← List.append_assoc]
      exact (List.sublist_append_left _ rest).count_le _
    rw [line_after, toNat_clip]
    omega
  · show (clip (0 + byteSize done)).toNat ≤ _
    rw [toNat_clip, byteSize_append]
    omega

theorem bounds_of_mem_tokens : ∀ t ∈ (Lexed.ofText text).tokens,
    t.line.toNat ≤ 1 + text.count '\n' ∧ t.span.start.toNat ≤ byteSize text := by
  refine forall_tokens ?_ ?_
  · intro l hl t htoken
    obtain ⟨kind, literal, -, rfl⟩ := Located.of_token?_eq_some htoken
    exact bounds_of_mem_located hl
  · show (clip (1 + text.count '\n')).toNat ≤ _ ∧ (clip (0 + byteSize text)).toNat ≤ _
    rw [toNat_clip, toNat_clip]
    omega

theorem bounds_of_mem_diagnostics : ∀ d ∈ (Lexed.ofText text).diagnostics,
    d.line.toNat ≤ 1 + text.count '\n' ∧ d.span.start.toNat ≤ byteSize text := by
  refine forall_diagnostics ?_
  intro l hl d hfault
  obtain ⟨template, arguments, rfl⟩ := Located.of_diagnostic?_eq_some hfault
  exact bounds_of_mem_located hl

/-- **What is found behind some pieces** is what is found in the rest of the text by itself, moved
to where it is. -/
theorem ofText_eq_moved (h : pieces text = before ++ later) (hsize : byteSize text ≤ 2 ^ 32 - 1) :
    let rest := later.flatMap Piece.text
    let bytes := byteSize (before.flatMap Piece.text)
    let lines := (before.flatMap Piece.text).count '\n'
    (Lexed.ofText text).tokens =
        (locate .origin before).filterMap Located.token? ++
          (Lexed.ofText rest).tokens.map (Token.moved bytes lines) ∧
      (Lexed.ofText text).diagnostics =
        (locate .origin before).filterMap Located.diagnostic? ++
          (Lexed.ofText rest).diagnostics.map (Diagnostic.moved bytes lines) := by
  intro rest bytes lines
  have htext : before.flatMap Piece.text ++ rest = text := by
    rw [← List.flatMap_append, ← h, flatMap_text_pieces]
  have hplace : Place.origin.after (before.flatMap Piece.text) =
      Place.origin.moved bytes lines := rfl
  have hlocated : located text =
      locate .origin before ++ (located rest).map (Located.moved bytes lines) := by
    rw [located, h, locate_append, hplace, locate_moved, located, pieces_behind h]
  have hfits : ∀ l ∈ located rest, l.start.offset + byteSize l.piece.text + bytes ≤ 2 ^ 32 - 1 := by
    intro l hl
    have hle := offset_of_mem_located hl
    rw [← htext, byteSize_append] at hsize
    omega
  have hstop : Place.origin.after text = (Place.origin.after rest).moved bytes lines := by
    rw [← htext, Place.after_append, hplace, Place.after_moved]
  constructor
  · have htokens : ((located rest).map (Located.moved bytes lines)).filterMap Located.token? =
        ((located rest).filterMap Located.token?).map (Token.moved bytes lines) :=
      filterMap_moved fun l hl => token?_moved (hfits l hl)
    rw [Lexed.ofText, Lexed.ofText]
    simp only [hlocated, hstop, List.filterMap_append, List.map_append, List.append_assoc, htokens,
      eofToken_moved, List.map_singleton]
  · have hfaults : ((located rest).map (Located.moved bytes lines)).filterMap Located.diagnostic? =
        ((located rest).filterMap Located.diagnostic?).map (Diagnostic.moved bytes lines) :=
      filterMap_moved fun l hl => diagnostic?_moved (hfits l hl)
    rw [Lexed.ofText, Lexed.ofText]
    simp only [hlocated, List.filterMap_append, hfaults]

/-! ## Moving there and back -/

section Moving

variable {bytes lines : Nat}

theorem Span.movedBack_moved {s : Span} (h : s.start.toNat + bytes ≤ 2 ^ 32 - 1) :
    (s.moved bytes).movedBack bytes = s := by
  have hstart : (clip (s.start.toNat + bytes)).toNat = s.start.toNat + bytes := by
    rw [toNat_clip]
    omega
  rw [Span.movedBack, Span.moved, hstart, Nat.add_sub_cancel, UInt32.ofNat_toNat]

/-- A line that is counted on and back is the same. -/
theorem line_movedBack_moved {line : UInt32} (h : line.toNat + lines ≤ 2 ^ 32 - 1) :
    UInt32.ofNat ((clip (line.toNat + lines)).toNat - lines) = line := by
  have hline : (clip (line.toNat + lines)).toNat = line.toNat + lines := by
    rw [toNat_clip]
    omega
  rw [hline, Nat.add_sub_cancel, UInt32.ofNat_toNat]

theorem Token.movedBack_moved {t : Token} (hline : t.line.toNat + lines ≤ 2 ^ 32 - 1)
    (hstart : t.span.start.toNat + bytes ≤ 2 ^ 32 - 1) :
    (t.moved bytes lines).movedBack bytes lines = t := by
  rw [Token.movedBack, Token.moved, line_movedBack_moved hline, Span.movedBack_moved hstart]

theorem Diagnostic.movedBack_moved {d : Diagnostic} (hline : d.line.toNat + lines ≤ 2 ^ 32 - 1)
    (hstart : d.span.start.toNat + bytes ≤ 2 ^ 32 - 1) :
    (d.moved bytes lines).movedBack bytes lines = d := by
  rw [Diagnostic.movedBack, Diagnostic.moved, line_movedBack_moved hline,
    Span.movedBack_moved hstart]

/-- What is moved by so many bytes does not start in front of them. -/
theorem le_start_moved {position : UInt32} {s : Span}
    (h : s.start.toNat + position.toNat ≤ 2 ^ 32 - 1) :
    position ≤ (s.moved position.toNat).start := by
  rw [UInt32.le_iff_toNat_le]
  show _ ≤ (clip (s.start.toNat + position.toNat)).toNat
  rw [toNat_clip]
  omega

/-- Of what is in front of a position and what is moved behind it, the latter is kept. -/
theorem keep_moved {α : Type} {span : α → Span} {move back : α → α} {position : UInt32}
    {early late : List α} (hearly : ∀ a ∈ early, (span a).start < position)
    (hlate : ∀ a ∈ late, position ≤ (span (move a)).start) (hback : ∀ a ∈ late, back (move a) = a) :
    ((early ++ late.map move).filter fun a => position ≤ (span a).start).map back = late := by
  have hnone : (early.filter fun a => decide (position ≤ (span a).start)) = [] := by
    rw [List.filter_eq_nil_iff]
    intro a ha hle
    exact UInt32.not_le.mpr (hearly a ha) (of_decide_eq_true hle)
  have hall : ((late.map move).filter fun a => decide (position ≤ (span a).start)) =
      late.map move := by
    rw [List.filter_eq_self, List.forall_mem_map]
    exact fun a ha => decide_eq_true (hlate a ha)
  rw [List.filter_append, hnone, hall, List.nil_append, List.map_map]
  exact (List.map_congr_left hback).trans (List.map_id late)

end Moving

/-! ## Restarting -/

/-- **What starts behind some pieces** is what is found in the rest of the text by itself. -/
theorem behind_ofText {position : UInt32} (h : pieces text = before ++ later)
    (hsize : byteSize text < 2 ^ 32 - 1)
    (hposition : byteSize (before.flatMap Piece.text) = position.toNat) :
    (Lexed.ofText text).behind position ((before.flatMap Piece.text).count '\n') =
      Lexed.ofText (later.flatMap Piece.text) := by
  have htext : before.flatMap Piece.text ++ later.flatMap Piece.text = text := by
    rw [← List.flatMap_append, ← h, flatMap_text_pieces]
  obtain ⟨htokens, hfaults⟩ := ofText_eq_moved h (Nat.le_of_lt hsize)
  rw [hposition] at htokens hfaults
  have hearly : ∀ l ∈ locate .origin before, l.span.start < position := by
    intro l hl
    have hlt := start_lt_of_mem_locate h hl
    rw [UInt32.lt_iff_toNat_lt, ← hposition, ← Nat.zero_add (byteSize _)]
    refine Nat.lt_of_le_of_lt ?_ hlt
    show (clip l.start.offset).toNat ≤ l.start.offset
    rw [toNat_clip]
    exact Nat.min_le_left _ _
  -- lines and offsets of the rest fit where they are moved to
  have hroom {line start : UInt32}
      (hbounds : line.toNat ≤ 1 + (later.flatMap Piece.text).count '\n' ∧
        start.toNat ≤ byteSize (later.flatMap Piece.text)) :
      line.toNat + (before.flatMap Piece.text).count '\n' ≤ 2 ^ 32 - 1 ∧
        start.toNat + position.toNat ≤ 2 ^ 32 - 1 := by
    have hfront := count_lineFeed_le (before.flatMap Piece.text)
    have hbehind := count_lineFeed_le (later.flatMap Piece.text)
    rw [← htext, byteSize_append] at hsize
    omega
  rw [Lexed.behind, htokens, hfaults]
  refine congrArg₂ Lexed.mk (keep_moved ?_ ?_ ?_) (keep_moved ?_ ?_ ?_)
  · intro t ht
    obtain ⟨l, hl, -, hspan⟩ := exists_of_mem_token? ht
    rw [hspan]
    exact hearly l hl
  · exact fun t ht => le_start_moved (hroom (bounds_of_mem_tokens t ht)).2
  · intro t ht
    obtain ⟨hline, hstart⟩ := hroom (bounds_of_mem_tokens t ht)
    exact Token.movedBack_moved hline hstart
  · intro d hd
    obtain ⟨l, hl, -, -, hspan⟩ := exists_of_mem_diagnostic? hd
    rw [hspan]
    exact hearly l hl
  · exact fun d hd => le_start_moved (hroom (bounds_of_mem_diagnostics d hd)).2
  · intro d hd
    obtain ⟨hline, hstart⟩ := hroom (bounds_of_mem_diagnostics d hd)
    exact Diagnostic.movedBack_moved hline hstart

/-- **A scan can be restarted at anything it finds**, the end of the source included: the rest of
the source holds by itself what the source holds from there on, at places counted from there. -/
theorem lex_restart (source : String) (position : UInt32)
    (hsize : source.utf8ByteSize < 2 ^ 32 - 1) (hstarts : (lex source).StartsAt position) :
    ∃ front rest, source = front ++ rest ∧ front.utf8ByteSize = position.toNat ∧
      lex rest = (lex source).behind position (front.toList.count '\n') := by
  rw [← byteSize_toList] at hsize
  rw [lex_eq] at hstarts ⊢
  obtain ⟨before, later, hpieces, hposition⟩ :=
    exists_pieces_of_startsAt (Nat.le_of_lt hsize) hstarts
  refine ⟨String.ofList (before.flatMap Piece.text), String.ofList (later.flatMap Piece.text),
    ?_, ?_, ?_⟩
  · rw [← String.ofList_append, ← List.flatMap_append, ← hpieces, flatMap_text_pieces,
      String.ofList_toList]
  · rw [utf8ByteSize_ofList, hposition]
  · rw [lex_eq, String.toList_ofList, String.toList_ofList]
    exact (behind_ofText hpieces hsize hposition).symm

/-- Behind a string of two lines and a character of two bytes, with nothing in between. -/
theorem restart_mixed :
    "\"a\n\"é12.".utf8ByteSize < 2 ^ 32 - 1 ∧ (lex "\"a\n\"é12.").StartsAt 6 ∧
      ∃ front rest, "\"a\n\"é12." = front ++ rest ∧ front.utf8ByteSize = 6 ∧
        lex rest = (lex "\"a\n\"é12.").behind 6 (front.toList.count '\n') := by
  have hsize : "\"a\n\"é12.".utf8ByteSize < 2 ^ 32 - 1 := by decide
  have hstarts : (lex "\"a\n\"é12.").StartsAt 6 := Or.inl (by decide +kernel)
  exact ⟨hsize, hstarts, lex_restart _ 6 hsize hstarts⟩

end LoxLexer
