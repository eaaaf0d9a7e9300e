import LoxLexer.Position.LineMap
import LoxLexer.Proofs.Reconstruction

/-!
# Lines

A scan counts the lines while it reads, and it adds the lines of a string all at once. A line map
looks a line up among the places where lines start. Both come to the number of line feeds in front
of a position (`LineAt`), so they agree on everything that is found in a source (`lex_lines`).

A token or a diagnostic is on the line that its end is on. That is also the line of its start, for
all but what begins with a quote; a closed string is on the line of its closing quote.
-/

set_option autoImplicit false

namespace LoxLexer

/-! ## Definitions -/

/-- The number of line feeds among the first `size` bytes of a source. -/
def lineFeedsUpTo (source : String) (size : Nat) : Nat :=
  (source.toByteArray.data.toList.take size).count '\n'.toUInt8

/-- **A line, counted from 1, is that of a position**: it is one more than the number of line feeds
before the position, and the line map of the source, which counts from 0, has it there. -/
structure LineAt (source : String) (line position : UInt32) : Prop where
  counted : line.toNat = 1 + lineFeedsUpTo source position.toNat
  mapped : line.toNat = ((LineMap.ofText source).lineOf position).toNat + 1

/-- **The lines of what a source holds are right.** -/
structure LinesAgree (source : String) (lexed : Lexed) : Prop where
  token_end : ∀ t ∈ lexed.tokens, ∃ stop, t.span.stop = .ok stop ∧ LineAt source t.line stop
  diagnostic_end : ∀ d ∈ lexed.diagnostics, ∃ stop, d.span.stop = .ok stop ∧
    LineAt source d.line stop
  token_start : ∀ t ∈ lexed.tokens, t.kind ≠ .string → LineAt source t.line t.span.start
  /-- A closed string is on the line of the quote that closes it. -/
  string_close : ∀ t ∈ lexed.tokens, t.kind = .string → ∃ stop, t.span.stop = .ok stop ∧
    0 < stop ∧ LineAt source t.line (stop - 1)
  unexpected_start : ∀ d ∈ lexed.diagnostics, d.code = 1001 → LineAt source d.line d.span.start
  tokens_rise : lexed.tokens.Pairwise fun s t => s.line ≤ t.line
  diagnostics_rise : lexed.diagnostics.Pairwise fun s t => s.line ≤ t.line

/-! ## Counting line feeds -/

variable {source : String} {done rest : List Char} {l : Located}

theorem bytes_eq_encode (source : String) :
    source.toByteArray.data.toList = encode source.toList := by
  have hbytes : bytesFrom source (byteSize []) = encode source.toList := bytesFrom_eq (by simp)
  rwa [byteSize_nil, bytesFrom, List.drop_zero] at hbytes

theorem lineFeedsUpTo_of_append (hs : source = String.ofList (done ++ rest)) :
    lineFeedsUpTo source (byteSize done) = done.count '\n' := by
  have htext : source.toList = done ++ rest := by rw [hs, String.toList_ofList]
  rw [lineFeedsUpTo, bytes_eq_encode, htext, encode_append, ← length_encode, List.take_left]
  exact count_encode done (by decide)

theorem lineFeedsUpTo_mono {first last : Nat} (h : first ≤ last) :
    lineFeedsUpTo source first ≤ lineFeedsUpTo source last :=
  (List.take_sublist_take_left h).count_le _

/-- The line starts up to an offset are those behind the line feeds in front of it. -/
theorem countP_startsBehind (text : List Char) (offset size : Nat) :
    (LineMap.startsBehind offset text).countP (· ≤ size) =
      ((encode text).take (size - offset)).count '\n'.toUInt8 := by
  induction text generalizing offset with
  | nil => simp [LineMap.startsBehind, encode]
  | cons c rest ih =>
      have hencode : encode (c :: rest) = String.utf8EncodeChar c ++ encode rest :=
        List.flatMap_cons
      have hbehind : size - offset - c.utf8Size = size - (offset + c.utf8Size) := by omega
      rw [LineMap.startsBehind, hencode, List.take_append, List.count_append,
        String.length_utf8EncodeChar, hbehind, ← ih]
      by_cases hfeed : c = '\n'
      · -- the single byte of a line feed is among the first ones if the start behind it is
        have hbyte : String.utf8EncodeChar '\n' = ['\n'.toUInt8] :=
          utf8EncodeChar_of_ascii (by decide)
        have hsize : '\n'.utf8Size = 1 := rfl
        rw [hfeed, if_pos rfl, hbyte, hsize, List.countP_cons, Nat.add_comm]
        by_cases hle : offset + 1 ≤ size
        · have htake : size - offset = (size - offset - 1) + 1 := by omega
          rw [htake]
          simp [hle]
        · have htake : size - offset = 0 := by omega
          rw [htake]
          simp [hle]
      · have hnot : '\n'.toUInt8 ∉ String.utf8EncodeChar c := fun h =>
          hfeed ((mem_utf8EncodeChar (by decide)).mp h)
        have hnone : ((String.utf8EncodeChar c).take (size - offset)).count '\n'.toUInt8 = 0 :=
          List.count_eq_zero.mpr fun h => hnot (List.mem_of_mem_take h)
        rw [if_neg hfeed, hnone, Nat.zero_add]

/-- **The line map counts line feeds**: the line of a position, which may be any, is the number of
line feeds before it. -/
theorem toNat_lineOf (hsize : source.utf8ByteSize ≤ 2 ^ 32 - 1) (position : UInt32) :
    ((LineMap.ofText source).lineOf position).toNat = lineFeedsUpTo source position.toNat := by
  rw [← byteSize_toList] at hsize
  -- all line starts fit in 32 bits, so clipping them makes no difference
  have hclip : ∀ start ∈ LineMap.startsBehind 0 source.toList,
      (decide (clip start ≤ position) = true ↔ decide (start ≤ position.toNat) = true) := by
    intro start hstart
    have hbound := (LineMap.bounds_startsBehind source.toList hstart).2
    rw [decide_eq_true_iff, decide_eq_true_iff, UInt32.le_iff_toNat_le, toNat_clip]
    omega
  have hcount : ((LineMap.startsBehind 0 source.toList).map clip).countP (· ≤ position) =
      lineFeedsUpTo source position.toNat := by
    rw [List.countP_map, lineFeedsUpTo, bytes_eq_encode]
    have hcongr := List.countP_congr hclip
    rw [countP_startsBehind source.toList 0 position.toNat] at hcongr
    exact hcongr
  have hle : lineFeedsUpTo source position.toNat ≤ byteSize source.toList := by
    rw [lineFeedsUpTo, bytes_eq_encode, ← length_encode]
    exact Nat.le_trans List.count_le_length (List.length_take_le' _ _)
  rw [LineMap.lineOf_ofText, hcount, toNat_clip]
  omega

/-! ## The line of a cut -/

/-- **The line that a reader has come to** behind `done` is that of its offset. -/
theorem lineAt_of_append (hs : source = String.ofList (done ++ rest))
    (hsize : source.utf8ByteSize < 2 ^ 32 - 1) :
    LineAt source (clip (1 + done.count '\n')) (clip (byteSize done)) := by
  have hbytes : byteSize done + byteSize rest < 2 ^ 32 - 1 := by
    rwa [hs, utf8ByteSize_ofList, byteSize_append] at hsize
  have hfeeds := count_lineFeed_le done
  have hline : (clip (1 + done.count '\n')).toNat = 1 + done.count '\n' := by
    rw [toNat_clip]
    omega
  have hoffset : (clip (byteSize done)).toNat = byteSize done := by
    rw [toNat_clip]
    omega
  constructor
  case counted => rw [hline, hoffset, lineFeedsUpTo_of_append hs]
  case mapped =>
    rw [hline, toNat_lineOf (Nat.le_of_lt hsize), hoffset, lineFeedsUpTo_of_append hs, Nat.add_comm]

/-! ## The lines of pieces -/

theorem stop_span (hstart : l.start = Place.origin.after done) :
    l.span.stop = .ok (clip (byteSize (done ++ l.piece.text))) := by
  have hoffset : l.start.offset = byteSize done := by
    rw [hstart]
    exact Nat.zero_add _
  rw [Located.span, Span.stop_covering, hoffset, byteSize_append]

/-- The line of a piece is that of its end. -/
theorem lineAt_stop (hsize : source.utf8ByteSize < 2 ^ 32 - 1) (h : l ∈ located source.toList) :
    ∃ stop, l.span.stop = .ok stop ∧ LineAt source l.line stop := by
  obtain ⟨done, rest, hs, -, hstart⟩ := exists_cut h
  obtain ⟨piece, start⟩ := l
  dsimp only at hs hstart
  subst hstart
  refine ⟨_, stop_span rfl, ?_⟩
  rw [line_after]
  exact lineAt_of_append (by rw [hs, List.append_assoc]) hsize

/-- If no line ends within the piece, the line is that of its start as well. -/
theorem lineAt_start (hsize : source.utf8ByteSize < 2 ^ 32 - 1) (h : l ∈ located source.toList)
    (hnone : '\n' ∉ l.piece.text) : LineAt source l.line l.span.start := by
  obtain ⟨done, rest, hs, -, hstart⟩ := exists_cut h
  obtain ⟨piece, start⟩ := l
  dsimp only at hs hstart hnone
  subst hstart
  have hspan : (Located.span ⟨piece, Place.origin.after done⟩).start = clip (byteSize done) :=
    congrArg clip (Nat.zero_add _)
  rw [line_after, List.count_append, List.count_eq_zero.mpr hnone, Nat.add_zero, hspan]
  exact lineAt_of_append hs hsize

/-- The line of a closed string is that of the quote that closes it. -/
theorem lineAt_close {body : List Char} (hsize : source.utf8ByteSize < 2 ^ 32 - 1)
    (h : l ∈ located source.toList) (hstring : l.piece = .string body) :
    ∃ stop, l.span.stop = .ok stop ∧ 0 < stop ∧ LineAt source l.line (stop - 1) := by
  obtain ⟨done, rest, hs, -, hstart⟩ := exists_cut h
  obtain ⟨piece, start⟩ := l
  dsimp only at hs hstart hstring
  subst hstart hstring
  -- the closing quote is one byte, and no line feed
  have hquote : done ++ (Piece.string body).text = done ++ '"' :: body ++ ['"'] := by
    rw [Piece.text, List.append_assoc]
  have hend : byteSize (done ++ '"' :: body ++ ['"']) = byteSize (done ++ '"' :: body) + 1 :=
    byteSize_append _ _
  have hcount : (done ++ '"' :: body ++ ['"']).count '\n' = (done ++ '"' :: body).count '\n' := by
    rw [List.count_append]
    rfl
  have hcut : source = String.ofList (done ++ '"' :: body ++ '"' :: rest) := by
    rw [hs, ← List.append_assoc, hquote, List.append_assoc, List.singleton_append]
  have hfits : byteSize (done ++ '"' :: body) + 1 ≤ 2 ^ 32 - 1 := by
    rw [hs, ← List.append_assoc, hquote, utf8ByteSize_ofList, byteSize_append, hend] at hsize
    omega
  have hone : clip (byteSize (done ++ '"' :: body) + 1) =
      clip (byteSize (done ++ '"' :: body)) + 1 := by
    rw [clip_eq_ofNat hfits, clip_eq_ofNat (Nat.le_of_succ_le hfits), UInt32.ofNat_add]
    rfl
  refine ⟨_, stop_span rfl, ?_, ?_⟩
  · show 0 < clip (byteSize (done ++ (Piece.string body).text))
    rw [hquote, hend, UInt32.lt_iff_toNat_lt, toNat_clip]
    exact Nat.lt_min.mpr ⟨Nat.succ_pos _, by decide⟩
  · show LineAt source _ (clip (byteSize (done ++ (Piece.string body).text)) - 1)
    rw [line_after, hquote, hend, hcount, hone, UInt32.add_sub_cancel]
    exact lineAt_of_append hcut hsize

/-! ## Where lines may end -/

/-- No line ends within a token that is not a string. -/
theorem lineFeed_not_mem_of_token {t : Token} (hfits : l.piece.Fits rest) (h : l.token? = some t)
    (hkind : t.kind ≠ .string) : '\n' ∉ l.piece.text := by
  obtain ⟨piece, start⟩ := l
  cases piece with
  | punctuator p => exact p.lineFeed_not_mem_spelling
  | numeral n => exact hfits.wellFormed.lineFeed_not_mem
  | string body =>
      cases h
      exact absurd rfl hkind
  | _ => cases h

theorem exists_body_of_token {t : Token} (h : l.token? = some t) (hkind : t.kind = .string) :
    ∃ body, l.piece = .string body := by
  obtain ⟨piece, start⟩ := l
  cases piece with
  | string body => exact ⟨body, rfl⟩
  | punctuator p =>
      cases h
      cases hkind
  | numeral n =>
      cases h
      cases hkind
  | _ => cases h

/-- Nor within an unexpected character. -/
theorem lineFeed_not_mem_of_unexpected {d : Diagnostic} (hfits : l.piece.Fits rest)
    (h : l.diagnostic? = some d) (hcode : d.code = 1001) : '\n' ∉ l.piece.text := by
  obtain ⟨piece, start⟩ := l
  cases piece with
  | stray c =>
      intro hmem
      rw [← List.mem_singleton.mp hmem] at hfits
      cases hfits
  | unclosed body =>
      cases h
      cases hcode
  | _ => cases h

/-! ## The lines of a source -/

/-- Lines rise where the spans do. -/
theorem line_le_of_before {line line' : UInt32} {span span' : Span}
    (hline : ∃ stop, span.stop = .ok stop ∧ LineAt source line stop)
    (hline' : ∃ stop, span'.stop = .ok stop ∧ LineAt source line' stop)
    (hbefore : span.Before span') : line ≤ line' := by
  obtain ⟨stop, hstop, hcounted, -⟩ := hline
  obtain ⟨stop', hstop', hcounted', -⟩ := hline'
  -- the end of a span is its start and its length together
  have hsum (s : Span) (stop : UInt32) (h : s.stop = .ok stop) :
      stop.toNat = s.start.toNat + s.length.toNat := by
    rw [Span.stop] at h
    split at h
    · rename_i hfits
      cases h
      rw [UInt32.toNat_add, Nat.mod_eq_of_lt hfits]
    · cases h
  have hle : stop.toNat ≤ stop'.toNat := by
    rw [hsum span stop hstop, hsum span' stop' hstop']
    exact Nat.le_trans hbefore (Nat.le_add_right _ _)
  have hfeeds : lineFeedsUpTo source stop.toNat ≤ lineFeedsUpTo source stop'.toNat :=
    lineFeedsUpTo_mono hle
  rw [UInt32.le_iff_toNat_le]
  omega

/-- The end of a source is on its last line, and empty. -/
theorem lineAt_eofToken (hsize : source.utf8ByteSize < 2 ^ 32 - 1) :
    let last := eofToken (Place.origin.after source.toList)
    last.span.stop = .ok last.span.start ∧ LineAt source last.line last.span.start := by
  intro last
  have hcut : source = String.ofList (source.toList ++ []) := by
    rw [List.append_nil, String.ofList_toList]
  have hstart : last.span.start = clip (byteSize source.toList) := congrArg clip (Nat.zero_add _)
  constructor
  · exact Span.stop_empty _
  · rw [hstart]
    exact lineAt_of_append hcut hsize

/-- **The lines that a scan counts are those of the line map.** -/
theorem lex_lines (source : String) (hsize : source.utf8ByteSize < 2 ^ 32 - 1) :
    LinesAgree source (lex source) := by
  have hle := Nat.le_of_lt hsize
  obtain ⟨heof, heofLine⟩ := lineAt_eofToken hsize
  rw [lex_eq]
  have htokens : ∀ t ∈ (Lexed.ofText source.toList).tokens,
      ∃ stop, t.span.stop = .ok stop ∧ LineAt source t.line stop := by
    refine forall_tokens ?_ ⟨_, heof, heofLine⟩
    intro l hl t htoken
    obtain ⟨kind, literal, -, rfl⟩ := Located.of_token?_eq_some htoken
    exact lineAt_stop hsize hl
  have hdiagnostics : ∀ d ∈ (Lexed.ofText source.toList).diagnostics,
      ∃ stop, d.span.stop = .ok stop ∧ LineAt source d.line stop := by
    refine forall_diagnostics ?_
    intro l hl d hfault
    obtain ⟨template, arguments, rfl⟩ := Located.of_diagnostic?_eq_some hfault
    exact lineAt_stop hsize hl
  constructor
  case token_end => exact htokens
  case diagnostic_end => exact hdiagnostics
  case token_start =>
    refine forall_tokens ?_ fun _ => heofLine
    intro l hl t htoken hkind
    obtain ⟨done, rest, -, hfits, -⟩ := exists_cut hl
    have hnone := lineFeed_not_mem_of_token hfits htoken hkind
    obtain ⟨kind, literal, -, rfl⟩ := Located.of_token?_eq_some htoken
    exact lineAt_start hsize hl hnone
  case string_close =>
    refine forall_tokens ?_ nofun
    intro l hl t htoken hkind
    obtain ⟨body, hbody⟩ := exists_body_of_token htoken hkind
    obtain ⟨kind, literal, -, rfl⟩ := Located.of_token?_eq_some htoken
    exact lineAt_close hsize hl hbody
  case unexpected_start =>
    refine forall_diagnostics ?_
    intro l hl d hfault hcode
    obtain ⟨done, rest, -, hfits, -⟩ := exists_cut hl
    have hnone := lineFeed_not_mem_of_unexpected hfits hfault hcode
    obtain ⟨template, arguments, rfl⟩ := Located.of_diagnostic?_eq_some hfault
    exact lineAt_start hsize hl hnone
  case tokens_rise =>
    refine (pairwise_tokens hle).imp_of_mem ?_
    exact fun hs ht hbefore => line_le_of_before (htokens _ hs) (htokens _ ht) hbefore
  case diagnostics_rise =>
    refine (pairwise_diagnostics hle).imp_of_mem ?_
    exact fun hs ht hbefore => line_le_of_before (hdiagnostics _ hs) (hdiagnostics _ ht) hbefore

/-- Lines that end in a string, behind a carriage return, in a comment and in what is not closed. -/
theorem lines_mixed :
    "\"a\nb\" @\r\n// c\n1 \"\n".utf8ByteSize < 2 ^ 32 - 1 ∧
      LinesAgree "\"a\nb\" @\r\n// c\n1 \"\n" (lex "\"a\nb\" @\r\n// c\n1 \"\n") :=
  ⟨by decide, lex_lines _ (by decide)⟩

end LoxLexer
