import LoxLexer.Proofs.LineIndex
import LoxLexer.Proofs.Sources

/-!
# Where reports point

A report shows a diagnostic with a line and a column. They are counted another way than the line in
the message of the diagnostic: there only a line feed ends a line, here a carriage return by itself
does as well. So the two agree up to the first such carriage return and differ behind it.

This file says by how much. What is shown at an offset is described by the bytes in front of it
(`LineColumn.IsOf`), and going on by one character keeps this true (`LineColumn.IsOf.behind`). So
the position is the one of the line map if and only if no carriage return by itself is in front of it
(`LineMap.places_iff`), and each of these puts it a line further from the line of the message
(`reports_placed`).
-/

set_option autoImplicit false

namespace LoxLexer

/-! ## Definitions -/

/-- A line feed is at the offset. -/
def LineFeedAt (source : String) (offset : Nat) : Prop :=
  source.toByteArray.data.toList[offset]? = some '\n'.toUInt8

/-- **A carriage return by itself** is at the offset: no line feed follows it. -/
def LoneReturnAt (source : String) (offset : Nat) : Prop :=
  source.toByteArray.data.toList[offset]? = some '\r'.toUInt8 ∧
    source.toByteArray.data.toList[offset + 1]? ≠ some '\n'.toUInt8

instance (source : String) : DecidablePred (LoneReturnAt source) := fun _ =>
  inferInstanceAs (Decidable (_ ∧ _))

/-- The number of carriage returns by themselves among the first `size` bytes of a source. -/
def loneReturnsUpTo (source : String) (size : Nat) : Nat :=
  (List.range size).countP (LoneReturnAt source ·)

/-- The byte at the offset is the last one of a line, as text files end lines. -/
def EndsLineAt (source : String) (offset : Nat) : Prop :=
  LineFeedAt source offset ∨ LoneReturnAt source offset

/-- The line of the offset begins at `start`, if lines end where `ends` says. -/
structure LineBegins (ends : Nat → Prop) (start offset : Nat) : Prop where
  le : start ≤ offset
  behind : start = 0 ∨ ends (start - 1)
  inner : ∀ i, start ≤ i → i < offset → ¬ ends i

/-- **What is shown at an offset**: lines end at line feeds and at carriage returns by themselves,
and the column counts the bytes of the line. -/
structure LineColumn.IsOf (position : LineColumn) (source : String) (offset : Nat) : Prop where
  line : position.line = 1 + lineFeedsUpTo source offset + loneReturnsUpTo source offset
  column : ∃ start, LineBegins (EndsLineAt source) start offset ∧
    position.column = 1 + (offset - start)

/-- **A position is the one that a line map gives** for an offset, counted from 1. -/
def LineMap.Places (map : LineMap) (offset : UInt32) (position : LineColumn) : Prop :=
  position.line = 1 + (map.lineOf offset).toNat ∧
    ∃ start, map.lineStart (map.lineOf offset) = .ok start ∧
      position.column + start.toNat = 1 + offset.toNat

/-- **The position shown for a diagnostic**, next to the line map and to the line that the message
tells. -/
structure Diagnostic.ShownAt (d : Diagnostic) (source : String) (position : LineColumn) : Prop where
  isOf : position.IsOf source d.span.start.toNat
  /-- The line map has it there unless a carriage return by itself is in front of it. -/
  places_iff : (LineMap.ofText source).Places d.span.start position ↔
    loneReturnsUpTo source d.span.start.toNat = 0
  /-- The message tells the last line of the span, so the line feeds of the span come between. -/
  line_slice : ∃ text, d.span.slice? source = some text ∧
    position.line + text.toList.count '\n' =
      d.line.toNat + loneReturnsUpTo source d.span.start.toNat
  line_unexpected : d.code = 1001 →
    position.line = d.line.toNat + loneReturnsUpTo source d.span.start.toNat

/-- **The report of a diagnostic** tells the line of the diagnostic and points at its span. -/
structure Report.Placed (report : Report) (source : SourceFile) (d : Diagnostic) : Prop where
  code : report.code = diagnosticCode d.code
  message : report.message = "[line " ++ d.line.toNat.repr ++ "] Error: " ++ d.message
  place : ∃ position, report.place = some ⟨source.name, position⟩ ∧
    d.ShownAt source.text position

/-! ## Bytes -/

variable {source : String} {done rest : List Char} {c : Char} {position : LineColumn}

theorem getElem?_bytes_of_append (hs : source = String.ofList (done ++ rest)) (i : Nat) :
    source.toByteArray.data.toList[byteSize done + i]? = (encode rest)[i]? := by
  rw [← bytesFrom_eq hs, bytesFrom, List.getElem?_drop]

/-- Each byte of a character tells whether it is a given one of ASCII. -/
theorem getElem?_encode_cons {a : Char} (ha : a.toNat < 128) {i : Nat} (hi : i < c.utf8Size) :
    (encode (c :: rest))[i]? = some a.toUInt8 ↔ c = a := by
  have hlength : i < (String.utf8EncodeChar c).length := by
    rwa [String.length_utf8EncodeChar]
  rw [encode, List.flatMap_cons, List.getElem?_append_left hlength]
  constructor
  · intro h
    exact (mem_utf8EncodeChar ha).mp (List.mem_of_getElem? h)
  · rintro rfl
    rw [utf8EncodeChar_of_ascii ha] at hlength ⊢
    obtain rfl : i = 0 := Nat.lt_one_iff.mp hlength
    rfl

theorem head?_encode {a : Char} (ha : a.toNat < 128) :
    (encode rest)[0]? = some a.toUInt8 ↔ rest.head? = some a := by
  cases rest with
  | nil => simp [encode]
  | cons c rest => rw [getElem?_encode_cons ha c.utf8Size_pos, List.head?_cons, Option.some.injEq]

theorem lineFeedAt_iff (hs : source = String.ofList (done ++ c :: rest)) {i : Nat}
    (hi : i < c.utf8Size) : LineFeedAt source (byteSize done + i) ↔ c = '\n' := by
  rw [LineFeedAt, getElem?_bytes_of_append hs]
  exact getElem?_encode_cons (by decide) hi

theorem loneReturnAt_iff (hs : source = String.ofList (done ++ c :: rest)) {i : Nat}
    (hi : i < c.utf8Size) :
    LoneReturnAt source (byteSize done + i) ↔ c = '\r' ∧ rest.head? ≠ some '\n' := by
  rw [LoneReturnAt, getElem?_bytes_of_append hs, getElem?_encode_cons (by decide) hi]
  refine and_congr_right ?_
  rintro rfl
  -- a carriage return is one byte, so that the next byte is the first one of `rest`
  have hnext : source = String.ofList ((done ++ ['\r']) ++ rest) := by
    rw [hs, List.append_cons]
  have hoffset : byteSize done + i + 1 = byteSize (done ++ ['\r']) + 0 := by
    have hone : i < 1 := hi
    rw [byteSize_append]
    show byteSize done + i + 1 = byteSize done + 1 + 0
    omega
  rw [hoffset, getElem?_bytes_of_append hnext]
  exact not_congr (head?_encode (by decide))

theorem endsLineAt_iff (hs : source = String.ofList (done ++ c :: rest)) {i : Nat}
    (hi : i < c.utf8Size) : EndsLineAt source (byteSize done + i) ↔
      c = '\n' ∨ (c = '\r' ∧ rest.head? ≠ some '\n') :=
  or_congr (lineFeedAt_iff hs hi) (loneReturnAt_iff hs hi)

theorem lineFeedsUpTo_add (hs : source = String.ofList (done ++ c :: rest)) :
    lineFeedsUpTo source (byteSize done + c.utf8Size) =
      lineFeedsUpTo source (byteSize done) + if c = '\n' then 1 else 0 := by
  have hs' : source = String.ofList ((done ++ [c]) ++ rest) := by
    rw [hs, List.append_cons]
  have hsize : byteSize done + c.utf8Size = byteSize (done ++ [c]) := by
    rw [byteSize_append]
    rfl
  rw [hsize, lineFeedsUpTo_of_append hs', lineFeedsUpTo_of_append hs, List.count_append,
    List.count_singleton]
  simp

theorem loneReturnsUpTo_add (hs : source = String.ofList (done ++ c :: rest)) :
    loneReturnsUpTo source (byteSize done + c.utf8Size) =
      loneReturnsUpTo source (byteSize done) +
        if c = '\r' ∧ rest.head? ≠ some '\n' then 1 else 0 := by
  have hbytes : (List.range c.utf8Size).countP (fun i => LoneReturnAt source (byteSize done + i)) =
      if c = '\r' ∧ rest.head? ≠ some '\n' then 1 else 0 := by
    split
    · rename_i hlone
      have hall : ∀ i ∈ List.range c.utf8Size,
          decide (LoneReturnAt source (byteSize done + i)) = true := by
        intro i hi
        exact decide_eq_true ((loneReturnAt_iff hs (List.mem_range.mp hi)).mpr hlone)
      rw [List.countP_eq_length.mpr hall, List.length_range, hlone.1]
      rfl
    · rename_i hnot
      rw [List.countP_eq_zero]
      intro i hi hlone
      exact hnot ((loneReturnAt_iff hs (List.mem_range.mp hi)).mp (of_decide_eq_true hlone))
  rw [loneReturnsUpTo, List.range_add, List.countP_append, List.countP_map, ← hbytes]
  rfl

/-! ## Where lines begin -/

namespace LineBegins

variable {ends ends' : Nat → Prop} {start start' offset : Nat}

/-- A line begins just behind the end of another one. -/
theorem behind_end {i : Nat} (h : ends i) : LineBegins ends (i + 1) (i + 1) :=
  ⟨Nat.le_refl _, Or.inr h, fun _ hfirst hlast => absurd hlast (Nat.not_lt.mpr hfirst)⟩

/-- The line goes on where no line ends. -/
theorem extend {size : Nat} (h : LineBegins ends start offset)
    (hnone : ∀ i < size, ¬ ends (offset + i)) : LineBegins ends start (offset + size) := by
  refine ⟨Nat.le_add_right_of_le h.le, h.behind, fun i hfirst hlast hends => ?_⟩
  by_cases hbefore : i < offset
  · exact h.inner i hfirst hbefore hends
  · obtain ⟨k, rfl⟩ := Nat.exists_eq_add_of_le (Nat.le_of_not_lt hbefore)
    exact hnone k (Nat.add_lt_add_iff_left.mp hlast) hends

theorem not_lt (h : LineBegins ends start offset) (h' : LineBegins ends start' offset) :
    ¬ start < start' := by
  intro hlt
  have hle := h'.le
  rcases h'.behind with hzero | hends
  · omega
  · exact h.inner (start' - 1) (by omega) (by omega) hends

/-- The line of an offset begins at one place. -/
theorem unique (h : LineBegins ends start offset) (h' : LineBegins ends start' offset) :
    start = start' :=
  Nat.le_antisymm (Nat.le_of_not_lt (h'.not_lt h)) (Nat.le_of_not_lt (h.not_lt h'))

/-- Only the ends of lines in front of the offset matter. -/
theorem congr (h : LineBegins ends start offset) (hcongr : ∀ i < offset, ends i ↔ ends' i) :
    LineBegins ends' start offset := by
  have hle := h.le
  constructor
  case le => exact hle
  case behind =>
    rcases Nat.eq_zero_or_pos start with hzero | hpos
    · exact Or.inl hzero
    · have hends := h.behind.resolve_left (Nat.ne_of_gt hpos)
      exact Or.inr ((hcongr (start - 1) (by omega)).mp hends)
  case inner =>
    intro i hfirst hlast hends
    exact h.inner i hfirst hlast ((hcongr i hlast).mpr hends)

end LineBegins

/-! ## Going on by a character -/

namespace LineColumn

/-- The position behind a character, with `rest` behind it. -/
def behind (position : LineColumn) (c : Char) (rest : List Char) : LineColumn :=
  if c = '\n' ∨ (c = '\r' ∧ rest.head? ≠ some '\n') then ⟨position.line + 1, 1⟩
  else ⟨position.line, position.column + c.utf8Size⟩

theorem afterBytes_zero (position : LineColumn) (text : List Char) :
    position.afterBytes 0 text = position := by
  cases text <;> simp [afterBytes]

theorem afterBytes_cons (position : LineColumn) (c : Char) (rest : List Char) (size : Nat) :
    position.afterBytes (c.utf8Size + size) (c :: rest) =
      (position.behind c rest).afterBytes size rest := by
  have hpos := c.utf8Size_pos
  rw [afterBytes, if_neg (by omega), behind]
  split
  · rename_i hends
    have hone : c.utf8Size = 1 := by
      rcases hends with rfl | ⟨rfl, -⟩ <;> rfl
    rw [hone, Nat.add_sub_cancel_left]
  · rw [Nat.add_sub_cancel_left]

/-- **A character further on**, the position shown is right again. -/
theorem IsOf.behind (hs : source = String.ofList (done ++ c :: rest))
    (h : position.IsOf source (byteSize done)) :
    (position.behind c rest).IsOf source (byteSize done + c.utf8Size) := by
  obtain ⟨hline, start, hbegins, hcolumn⟩ := h
  have hle := hbegins.le
  have hfeeds := lineFeedsUpTo_add hs
  have hreturns := loneReturnsUpTo_add hs
  have hpos := c.utf8Size_pos
  rw [LineColumn.behind]
  split
  · -- the line is over, and the next one starts behind the character
    rename_i hends
    have hone : c.utf8Size = 1 := by
      rcases hends with rfl | ⟨rfl, -⟩ <;> rfl
    have hsum : ((if c = '\n' then 1 else 0) +
        if c = '\r' ∧ rest.head? ≠ some '\n' then 1 else 0) = 1 := by
      rcases hends with rfl | ⟨rfl, hrest⟩
      · simp
      · simp [hrest]
    constructor
    case line =>
      show position.line + 1 = _
      omega
    case column =>
      have hend : EndsLineAt source (byteSize done) := (endsLineAt_iff hs hpos).mpr hends
      rw [hone]
      exact ⟨_, .behind_end hend, by rw [Nat.sub_self]⟩
  · rename_i hinner
    obtain ⟨hfeed, hreturn⟩ := not_or.mp hinner
    constructor
    case line =>
      rw [hfeeds, hreturns, if_neg hfeed, if_neg hreturn]
      exact hline
    case column =>
      refine ⟨start, hbegins.extend fun i hi hends => ?_, ?_⟩
      · exact hinner ((endsLineAt_iff hs hi).mp hends)
      · show position.column + c.utf8Size = _
        omega

/-- **A text further on.** -/
theorem IsOf.afterBytes {text : List Char} (hs : source = String.ofList (done ++ (text ++ rest)))
    (h : position.IsOf source (byteSize done)) :
    (position.afterBytes (byteSize text) (text ++ rest)).IsOf source
      (byteSize (done ++ text)) := by
  induction text generalizing done position with
  | nil =>
      rw [byteSize_nil, afterBytes_zero, List.append_nil]
      exact h
  | cons c text ih =>
      have hs' : source = String.ofList ((done ++ [c]) ++ (text ++ rest)) := by
        rw [hs, List.append_assoc]
        rfl
      have hnext : (position.behind c (text ++ rest)).IsOf source (byteSize done + c.utf8Size) :=
        h.behind hs
      rw [byteSize_cons, List.cons_append, afterBytes_cons, List.append_cons]
      refine ih hs' ?_
      rw [byteSize_append]
      exact hnext

theorem isOf_origin (source : String) : origin.IsOf source 0 := by
  constructor
  case line => rfl
  case column =>
    exact ⟨0, ⟨Nat.le_refl 0, Or.inl rfl, fun i _ hlast => absurd hlast i.not_lt_zero⟩, rfl⟩

/-- **What is shown at a cut of a source.** -/
theorem isOf_ofOffset (hs : source = String.ofList (done ++ rest)) :
    (ofOffset source (byteSize done)).IsOf source (byteSize done) := by
  have htext : source.toList = done ++ rest := by rw [hs, String.toList_ofList]
  have hs' : source = String.ofList ([] ++ (done ++ rest)) := hs
  rw [ofOffset, htext]
  exact (isOf_origin source).afterBytes hs'

end LineColumn

/-! ## What the line map says -/

theorem lineFeedsUpTo_succ {i : Nat} (h : LineFeedAt source i) :
    lineFeedsUpTo source (i + 1) = lineFeedsUpTo source i + 1 := by
  rw [lineFeedsUpTo, lineFeedsUpTo, List.take_add_one, h, List.count_append]
  rfl

namespace LineMap

variable {offset : UInt32}

/-- **The start of the line of an offset** is where the line begins, if line feeds end lines. -/
theorem exists_lineStart (hsize : source.utf8ByteSize ≤ 2 ^ 32 - 1) (offset : UInt32) :
    ∃ start, (ofText source).lineStart ((ofText source).lineOf offset) = .ok start ∧
      LineBegins (LineFeedAt source) start.toNat offset.toNat := by
  have hrise := starts_rise_ofText hsize
  have hfits := lineCount_ofText_le hsize
  have hi : ((ofText source).lineOf offset).toNat < (ofText source).starts.length := by
    rw [length_starts]
    exact lineOf_lt hrise hfits offset
  have hget := List.getElem?_eq_getElem hi
  have hle : (ofText source).starts[((ofText source).lineOf offset).toNat] ≤ offset :=
    (getElem_starts_le_iff hrise hfits hi).mpr (Nat.le_refl _)
  generalize (ofText source).starts[((ofText source).lineOf offset).toNat] = start at hget hle
  refine ⟨start, lineStart_eq_ok_iff.mpr hget, UInt32.le_iff_toNat_le.mp hle, ?_, ?_⟩
  · rcases List.mem_cons.mp (List.mem_of_getElem? hget) with rfl | hlater
    · exact Or.inl rfl
    · have hmem := (mem_laterStarts_ofText hsize).mp hlater
      obtain ⟨i, hfeed, hnext⟩ := (mem_startsBehind source.toList).mp hmem
      rw [← bytes_eq_encode] at hfeed
      rw [hnext, Nat.zero_add, Nat.add_sub_cancel]
      exact Or.inr hfeed
  · -- the start and the offset are on one line, so no line feed is between them
    intro i hfirst hlast hfeed
    have hline : lineFeedsUpTo source start.toNat = lineFeedsUpTo source offset.toNat := by
      rw [← toNat_lineOf hsize, ← toNat_lineOf hsize]
      exact lineOf_of_getElem? hrise hfits hget
    have hnext := lineFeedsUpTo_succ hfeed
    have hbefore : lineFeedsUpTo source start.toNat ≤ lineFeedsUpTo source i :=
      lineFeedsUpTo_mono hfirst
    have hbehind : lineFeedsUpTo source (i + 1) ≤ lineFeedsUpTo source offset.toNat :=
      lineFeedsUpTo_mono hlast
    omega

/-- **The position shown is that of the line map** if and only if no carriage return by itself is in
front of it. -/
theorem places_iff (hsize : source.utf8ByteSize ≤ 2 ^ 32 - 1)
    (h : position.IsOf source offset.toNat) :
    (ofText source).Places offset position ↔ loneReturnsUpTo source offset.toNat = 0 := by
  obtain ⟨hline, start, hbegins, hcolumn⟩ := h
  have hlineOf := toNat_lineOf hsize offset
  constructor
  · rintro ⟨hplaced, -⟩
    omega
  · intro hzero
    obtain ⟨first, hfirst, hfirstBegins⟩ := exists_lineStart hsize offset
    have hends : ∀ i < offset.toNat, EndsLineAt source i ↔ LineFeedAt source i := by
      intro i hi
      refine or_iff_left fun hreturn => ?_
      exact List.countP_eq_zero.mp hzero i (List.mem_range.mpr hi) (decide_eq_true hreturn)
    have hsame : start = first.toNat := (hbegins.congr hends).unique hfirstBegins
    have hle := hbegins.le
    exact ⟨by omega, first, hfirst, by omega⟩

end LineMap

/-! ## Reports -/

/-- The line of a piece is that of its start and the line feeds within it. -/
theorem toNat_line_after {piece : Piece} (hs : source = String.ofList (done ++ (piece.text ++ rest)))
    (hsize : source.utf8ByteSize < 2 ^ 32 - 1) :
    (Located.line ⟨piece, Place.origin.after done⟩).toNat =
      1 + lineFeedsUpTo source (byteSize done) + piece.text.count '\n' := by
  have hfeeds := count_lineFeed_le (done ++ piece.text)
  rw [hs, utf8ByteSize_ofList, ← List.append_assoc, byteSize_append] at hsize
  rw [line_after, toNat_clip, Nat.min_eq_left (by omega), List.count_append,
    lineFeedsUpTo_of_append hs, Nat.add_assoc]

/-- **The position of a diagnostic** is shown where its span starts. -/
theorem shownAt_ofOffset {d : Diagnostic} (hsize : source.utf8ByteSize < 2 ^ 32 - 1)
    (hd : d ∈ (lex source).diagnostics) :
    d.ShownAt source (LineColumn.ofOffset source d.span.start.toNat) := by
  have hle := Nat.le_of_lt hsize
  rw [lex_eq] at hd
  obtain ⟨⟨piece, start⟩, hl, hfault, hline, hspan⟩ := exists_of_mem_diagnostic? hd
  obtain ⟨done, rest, hs, hfits, hstart⟩ := exists_cut hl
  dsimp only at hs hfits hstart
  subst hstart
  have hoffset : d.span.start.toNat = byteSize done := by
    rw [hspan, toNat_start_span (by rwa [byteSize_toList]) hl]
    exact Nat.zero_add _
  have hposition : (LineColumn.ofOffset source d.span.start.toNat).IsOf source
      d.span.start.toNat := by
    rw [hoffset]
    exact LineColumn.isOf_ofOffset hs
  -- the message counts the line feeds up to the end of the piece
  have hshown := hposition.line
  have hcounted := toNat_line_after hs hsize
  rw [← hline, ← hoffset] at hcounted
  constructor
  case isOf => exact hposition
  case places_iff => exact LineMap.places_iff hle hposition
  case line_slice =>
    refine ⟨String.ofList piece.text, hspan ▸ slice?_span hle hl, ?_⟩
    rw [String.toList_ofList]
    omega
  case line_unexpected =>
    intro hcode
    have hnone : piece.text.count '\n' = 0 :=
      List.count_eq_zero.mpr (lineFeed_not_mem_of_unexpected hfits hfault hcode)
    omega

/-- **Reports point where they say**, up to the carriage returns by themselves. Each of these adds a
line to the position, and not to the line of the message. -/
theorem reports_placed (files : FileSystem) (arguments : List String) (sources : List SourceFile)
    (hasks : Asks files arguments .text true sources)
    (hsize : ∀ source ∈ sources, source.text.utf8ByteSize < 2 ^ 32 - 1) :
    (run files arguments).stderr = .reports (sources.flatMap fun source =>
      (lex source.text).diagnostics.map (Report.ofDiagnostic source.name source.text)) ∧
    ∀ source ∈ sources, ∀ d ∈ (lex source.text).diagnostics,
      (Report.ofDiagnostic source.name source.text d).Placed source d := by
  constructor
  · rw [hasks.run_eq, stderr_tokenize_pretty]
  · intro source hsource d hd
    exact ⟨rfl, rfl, _, rfl, shownAt_ofOffset (hsize source hsource) hd⟩

/-- Behind a carriage return by itself, the position is on another line than the message says. -/
theorem placed_mixed :
    let files := FileSystem.ofList [("a", "#\r\n\r@\"é\n".toByteArray)]
    let arguments := ["tokenize", "--pretty", "a"]
    let source : SourceFile := ⟨"a", "#\r\n\r@\"é\n"⟩
    Asks files arguments .text true [source] ∧ source.text.utf8ByteSize < 2 ^ 32 - 1 ∧
      (run files arguments).stderr = .reports
        [⟨"lox::E1001", "[line 1] Error: Unexpected character: #", some ⟨"a", ⟨1, 1⟩⟩⟩,
          ⟨"lox::E1001", "[line 2] Error: Unexpected character: @", some ⟨"a", ⟨3, 1⟩⟩⟩,
          ⟨"lox::E1002", "[line 3] Error: Unterminated string.", some ⟨"a", ⟨3, 2⟩⟩⟩] ∧
      ∀ d ∈ (lex source.text).diagnostics,
        (Report.ofDiagnostic source.name source.text d).Placed source d := by
  intro files arguments source
  have hasks : Asks files arguments .text true [source] :=
    ⟨by decide +kernel, List.forall_mem_singleton.mpr rfl⟩
  have hsize : source.text.utf8ByteSize < 2 ^ 32 - 1 := by decide +kernel
  have hplaced := reports_placed files arguments [source] hasks
    (List.forall_mem_singleton.mpr hsize)
  exact ⟨hasks, hsize, by decide +kernel, hplaced.2 source List.mem_cons_self⟩

/-- A position need not be that of the line map. -/
theorem not_places_behind_return :
    let files := FileSystem.ofList [("a", "\r@".toByteArray)]
    (run files ["tokenize", "--pretty", "a"]).stderr = .reports
      [⟨"lox::E1001", "[line 1] Error: Unexpected character: @", some ⟨"a", ⟨2, 1⟩⟩⟩] ∧
    (lex "\r@").diagnostics.map Diagnostic.span = [⟨1, 1⟩] ∧
    ¬ (LineMap.ofText "\r@").Places 1 ⟨2, 1⟩ := by
  refine ⟨by decide +kernel, by decide +kernel, ?_⟩
  rintro ⟨hline, -⟩
  have hnone : lineFeedsUpTo "\r@" 1 = 0 := by decide +kernel
  have hlineOf : ((LineMap.ofText "\r@").lineOf 1).toNat = lineFeedsUpTo "\r@" 1 :=
    toNat_lineOf (by decide) 1
  rw [hlineOf, hnone] at hline
  cases hline

end LoxLexer
