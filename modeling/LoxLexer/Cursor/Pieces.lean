import LoxLexer.Cursor.Scan

/-!
# A scan reads pieces

A scan goes through a text by byte offsets, and one round of it may go wrong in several ways. Here
it is compared with the pieces of the text, which are read off a list of characters: a round reads
exactly the next piece (`scanToken_eq`), a whole scan therefore reads all pieces of the text
(`scan_eq`), and nothing goes wrong.

It does not matter how the scan gets over comments and strings, as long as it stops where they end
and counts the lines (`Skipping.Exact`).
-/

set_option autoImplicit false

namespace LoxLexer

namespace Cursor

/-- The cursor behind a piece, with what the piece stands for added to what was found. -/
def found (c : Cursor) (l : Located) : Cursor where
  start := l.start.offset
  current := l.stop.offset
  line := l.line
  tokens := c.tokens ++ l.token?.toArray
  diagnostics := c.diagnostics ++ l.diagnostic?.toArray

variable {source : String} {c : Cursor} {done rest : List Char} {line : Nat}

/-- Behind a piece the cursor stands behind the text of the piece. -/
theorem At.found (piece : Piece) (line : Nat) (h : c.At source done (piece.text ++ rest)) :
    (c.found ⟨piece, ⟨byteSize done, line⟩⟩).At source (done ++ piece.text) rest where
  source_eq := by rw [h.source_eq, List.append_assoc]
  current_eq := by
    rw [byteSize_append]
    rfl

/-- A piece that is a token has been read when the token has been added. -/
theorem addToken_eq_found (piece : Piece) (line : Nat) {kind : Kind} {literal : Literal}
    (htoken : Located.token? ⟨piece, ⟨byteSize done, line⟩⟩ =
      some (Located.toToken ⟨piece, ⟨byteSize done, line⟩⟩ kind literal))
    (hnone : Located.diagnostic? ⟨piece, ⟨byteSize done, line⟩⟩ = none)
    (hstart : c.start = byteSize done) (h : c.At source (done ++ piece.text) rest)
    (hline : c.line = clip (line + piece.text.count '\n')) :
    c.addToken source kind literal = .ok (c.found ⟨piece, ⟨byteSize done, line⟩⟩) := by
  have hcurrent := h.current_eq
  rw [byteSize_append] at hcurrent
  rw [addToken_eq kind literal hstart h, Cursor.found, htoken, hnone, hstart, hcurrent, hline]
  simp [Located.toToken, Located.line, Located.span, Located.stop, Place.after]

/-- A faulty piece has been read when it has been reported. -/
theorem report_eq_found (piece : Piece) (line : Nat) {template : Template}
    {arguments : List String}
    (hnone : Located.token? ⟨piece, ⟨byteSize done, line⟩⟩ = none)
    (hfault : Located.diagnostic? ⟨piece, ⟨byteSize done, line⟩⟩ =
      some (.ofTemplate template arguments (Located.line ⟨piece, ⟨byteSize done, line⟩⟩)
        (Located.span ⟨piece, ⟨byteSize done, line⟩⟩)))
    (hstart : c.start = byteSize done) (h : c.At source (done ++ piece.text) rest)
    (hline : c.line = clip (line + piece.text.count '\n')) :
    c.report template arguments = .ok (c.found ⟨piece, ⟨byteSize done, line⟩⟩) := by
  have hcurrent := h.current_eq
  rw [byteSize_append] at hcurrent
  rw [report_eq template arguments hstart h, Cursor.found, hnone, hfault, hstart, hcurrent, hline]
  simp [Located.line, Located.span, Located.stop, Place.after]

/-- A piece that is neither has been read when the cursor is behind it. -/
theorem eq_found (piece : Piece) (line : Nat)
    (hnone : Located.token? ⟨piece, ⟨byteSize done, line⟩⟩ = none)
    (hnone' : Located.diagnostic? ⟨piece, ⟨byteSize done, line⟩⟩ = none)
    (hstart : c.start = byteSize done) (h : c.At source (done ++ piece.text) rest)
    (hline : c.line = clip (line + piece.text.count '\n')) :
    c = c.found ⟨piece, ⟨byteSize done, line⟩⟩ := by
  have hcurrent := h.current_eq
  rw [byteSize_append] at hcurrent
  obtain ⟨start, current, _, tokens, diagnostics⟩ := c
  subst hstart hcurrent hline
  rw [Cursor.found, hnone, hnone']
  simp [Located.line, Located.stop, Place.after]

/-! ## Strings -/

/-- A string has been read when its token has been added behind the closing quote. -/
theorem addString_eq {body : List Char} (hstart : c.start = byteSize done)
    (h : c.At source (done ++ ('"' :: body ++ ['"'])) rest)
    (hline : c.line = clip (line + body.count '\n')) :
    c.addToken source .string (.string (String.ofList body)) =
      .ok (c.found ⟨.string body, ⟨byteSize done, line⟩⟩) := by
  have hcount : (Piece.text (.string body)).count '\n' = body.count '\n' := by
    simp [Piece.text]
  exact addToken_eq_found (.string body) line rfl rfl hstart h (by rw [hcount, hline])

/-- A string that is not closed has been read when it has been reported at the end. -/
theorem reportUnclosed_eq {body : List Char} (hstart : c.start = byteSize done)
    (h : c.At source (done ++ '"' :: body) [])
    (hline : c.line = clip (line + body.count '\n')) :
    c.report .unterminatedString [] =
      .ok (c.found ⟨.unclosed body, ⟨byteSize done, line⟩⟩) := by
  have hcount : (Piece.text (.unclosed body)).count '\n' = body.count '\n' := by
    simp [Piece.text]
  exact report_eq_found (.unclosed body) line rfl rfl hstart h (by rw [hcount, hline])

/-! ## Numbers -/

theorem takeDigits_eq {run : List Char} (hrun : ∀ d ∈ run, d.isDigit)
    (hrest : Halts Char.isDigit rest) (h : c.At source done (run ++ rest)) :
    takeDigits source c = .ok { c with current := byteSize (done ++ run) } := by
  induction run generalizing c done with
  | nil =>
      -- behind the run no digit is seen, nor at the end of the text, where the sentinel is
      have hstop : (rest.head?.getD sentinel).isDigit = false := by
        cases hhead : rest.head? with
        | none => rfl
        | some d => exact hrest d hhead
      rw [takeDigits, peek_eq h, ok_bind, List.nil_append, hstop, List.append_nil,
        ← h.current_eq]
      rfl
  | cons d run ih =>
      have hd : d.isDigit := hrun d (List.mem_cons_self ..)
      have hrest' := ih (fun e he => hrun e (List.mem_cons_of_mem d he)) h.pass
      rw [takeDigits, peek_of_cons h, ok_bind, if_pos hd, if_pos h.current_lt, hrest',
        List.append_assoc, List.singleton_append]
      rfl

theorem seesFraction_of_point {d : Char} (h : c.At source done ('.' :: d :: rest)) :
    seesFraction source c = .ok d.isDigit := by
  rw [seesFraction, peek_of_cons h, ok_bind, if_pos rfl, peekBehind_eq h]
  rfl

/-- At the end of the text the sentinel is seen, which is no digit. -/
theorem seesFraction_of_no_point (hrest : ∀ d more, rest = '.' :: d :: more → d.isDigit = false)
    (h : c.At source done rest) : seesFraction source c = .ok false := by
  rw [seesFraction, peek_eq h, ok_bind]
  split
  · rename_i hpoint
    rw [peekBehind_eq h, ok_bind]
    -- a point is next; without a character behind it the sentinel is seen there
    match rest, hpoint, hrest with
    | [], _, _ => rfl
    | [_], _, _ => rfl
    | a :: d :: more, hpoint, hrest =>
        have ha : a = '.' := hpoint
        have hd := hrest d more (by rw [ha])
        show Except.ok d.isDigit = _
        rw [hd]
  · rfl

theorem takeFraction_of_point {digits : List Char} (hne : digits ≠ [])
    (hdigits : ∀ d ∈ digits, d.isDigit) (hrest : Halts Char.isDigit rest)
    (h : c.At source done ('.' :: digits ++ rest)) :
    takeFraction source c = .ok { c with current := byteSize (done ++ '.' :: digits) } := by
  cases digits with
  | nil => exact absurd rfl hne
  | cons d digits =>
      have hsees : seesFraction source c = .ok true := by
        rw [seesFraction_of_point h, hdigits d (List.mem_cons_self ..)]
      have htake := takeDigits_eq hdigits hrest h.pass
      rw [List.append_assoc, List.singleton_append] at htake
      rw [takeFraction, hsees, ok_bind, if_pos rfl, advance_eq h, ok_bind]
      exact htake

theorem addNumber_eq {n : Numeral} (hn : n.WellFormed) (hstart : c.start = byteSize done)
    (h : c.At source (done ++ n.text) rest) (hline : c.line = clip line) :
    addNumber source c = .ok (c.found ⟨.numeral n, ⟨byteSize done, line⟩⟩) := by
  have hvalue : valueOf (String.ofList n.text) = n.value := by
    rw [valueOf, String.toList_ofList, Numeral.ofText?_text hn]
  have hcount : (Piece.text (.numeral n)).count '\n' = 0 :=
    List.count_eq_zero.mpr hn.lineFeed_not_mem
  have hadd := addToken_eq_found (.numeral n) line rfl rfl hstart h
    (by rw [hcount, hline, Nat.add_zero])
  rw [addNumber, hstart, h.current_eq, slice_eq h.source_eq, ok_bind, hvalue]
  exact hadd

/-- **A number**: the cursor reads the digits, and the fraction if there is one. -/
theorem scanNumber_eq {digit : Char} (hdigit : digit.isDigit) (hstart : c.start = byteSize done)
    (h : c.At source (done ++ [digit]) rest) (hline : c.line = clip line) :
    scanNumber source c =
      .ok (c.found ⟨(numeralPiece digit rest).1, ⟨byteSize done, line⟩⟩) := by
  obtain ⟨digits, behind, rfl, hdigits, hhalts⟩ := exists_run Char.isDigit rest
  have hwhole : ∀ d ∈ digit :: digits, d.isDigit := List.forall_mem_cons.mpr ⟨hdigit, hdigits⟩
  have htake := takeDigits_eq hdigits hhalts h
  have hat : ({ c with current := byteSize (done ++ [digit] ++ digits) } : Cursor).At source
      (done ++ digit :: digits) behind :=
    ⟨by rw [h.source_eq]; simp, by simp⟩
  rw [scanNumber, htake, ok_bind, numeralPiece_append hdigits hhalts]
  rcases fraction_or_not behind with ⟨decimals, after, rfl, hne, hdecimals, hafter⟩ | hnone
  · -- the number goes on behind the point
    have hfraction := takeFraction_of_point hne hdecimals hafter hat
    have hn := Numeral.wellFormed_decimal (List.cons_ne_nil digit digits) hwhole hne hdecimals
    rw [hfraction, ok_bind, fractionPiece_of_point hne hdecimals hafter]
    have hat' : ({ c with current := byteSize (done ++ digit :: digits ++ '.' :: decimals) } :
        Cursor).At source (done ++ (digit :: digits ++ '.' :: decimals)) after :=
      ⟨by rw [h.source_eq]; simp, by rw [List.append_assoc]⟩
    exact addNumber_eq hn hstart hat' hline
  · have hsees := seesFraction_of_no_point hnone hat
    have hn := Numeral.wellFormed_integer (List.cons_ne_nil digit digits) hwhole
    rw [takeFraction, hsees, ok_bind, fractionPiece_of_no_point hnone]
    exact addNumber_eq hn hstart hat hline

end Cursor

/-! ## Getting over comments and strings -/

/-- **Skipping as it should be**: a comment ends before a line feed or the end of the text, and
what begins with a quote is the next piece. -/
structure Skipping.Exact (skipping : Skipping) : Prop where
  comment_eq : ∀ {source : String} {c : Cursor} {done rest : List Char},
    c.At source done rest →
    skipping.comment source c =
      .ok { c with current := byteSize (done ++ rest.takeWhile (· != '\n')) }
  string_eq : ∀ {source : String} {c : Cursor} {done rest : List Char} {line : Nat},
    c.start = byteSize done → c.At source (done ++ ['"']) rest → c.line = clip line →
    skipping.string source c = .ok (c.found ⟨(stringPiece rest).1, ⟨byteSize done, line⟩⟩)

namespace Cursor

variable {skipping : Skipping} {source : String} {c : Cursor} {done rest : List Char} {line : Nat}

/-! ## One round -/

theorem addPunctuator_eq (p : Punctuator) (hstart : c.start = byteSize done)
    (h : c.At source (done ++ p.spelling) rest) (hline : c.line = clip line) :
    c.addToken source (.punctuator p) .absent =
      .ok (c.found ⟨.punctuator p, ⟨byteSize done, line⟩⟩) := by
  have hcount : (Piece.text (.punctuator p)).count '\n' = 0 :=
    List.count_eq_zero.mpr p.lineFeed_not_mem_spelling
  exact addToken_eq_found (.punctuator p) line rfl rfl hstart h (by rw [hcount, hline]; rfl)

/-- **Two slashes**: the cursor goes on to the end of the comment. -/
theorem comment_eq_found (exact : skipping.Exact) (hstart : c.start = byteSize done)
    (h : c.At source (done ++ ['/', '/']) rest) (hline : c.line = clip line) :
    skipping.comment source c =
      .ok (c.found ⟨(commentPiece rest).1, ⟨byteSize done, line⟩⟩) := by
  have hbody : '\n' ∉ rest.takeWhile (· != '\n') := not_mem_takeWhile '\n' rest
  have hcount : (Piece.text (commentPiece rest).1).count '\n' = 0 := by
    simpa [commentPiece, Piece.text, List.count_eq_zero] using hbody
  have hat : ({ c with current := byteSize (done ++ ['/', '/'] ++ rest.takeWhile (· != '\n')) } :
      Cursor).At source (done ++ Piece.text (commentPiece rest).1) (commentPiece rest).2 :=
    ⟨by rw [h.source_eq]; simp [commentPiece, Piece.text], by simp [commentPiece, Piece.text]⟩
  have hfound := eq_found (c := { c with
    current := byteSize (done ++ ['/', '/'] ++ rest.takeWhile (· != '\n')) })
    (commentPiece rest).1 line rfl rfl hstart hat (by rw [hcount, hline]; rfl)
  rw [exact.comment_eq h, hfound]
  rfl

/-- **A punctuator**: the cursor takes an equals sign that belongs to it, and gets over the
comment that two slashes begin. -/
theorem scanPunctuator_eq (exact : skipping.Exact) {p : Punctuator}
    (hstart : c.start = byteSize done) (h : c.At source (done ++ p.spelling) rest)
    (hline : c.line = clip line) :
    scanPunctuator skipping source p c =
      .ok (c.found ⟨(punctuatorPiece p rest).1, ⟨byteSize done, line⟩⟩) := by
  rw [scanPunctuator]
  split
  · rename_i q hlonger
    by_cases hhead : rest.head? = some '='
    · obtain ⟨rest', rfl⟩ := List.head?_eq_some_iff.mp hhead
      have hat : (c.pass '=').At source (done ++ q.spelling) rest' := by
        rw [Punctuator.spelling_withEqual hlonger, ← List.append_assoc]
        exact h.pass
      rw [match?_of_head h, ok_bind, punctuatorPiece_of_equal hlonger]
      exact addPunctuator_eq q hstart hat hline
    · have halone : punctuatorPiece p rest = (.punctuator p, rest) :=
        punctuatorPiece_of_alone (fun _ => hhead) (by rintro rfl; cases hlonger)
      rw [match?_of_not_head h hhead, ok_bind, halone]
      exact addPunctuator_eq p hstart h hline
  · rename_i hnone
    split
    · rename_i hslash
      subst hslash
      by_cases hhead : rest.head? = some '/'
      · obtain ⟨rest', rfl⟩ := List.head?_eq_some_iff.mp hhead
        have hat : (c.pass '/').At source (done ++ ['/', '/']) rest' := by
          have hpass := h.pass
          rw [List.append_assoc] at hpass
          exact hpass
        rw [match?_of_head h, ok_bind, punctuatorPiece_slash_slash]
        exact comment_eq_found exact hstart hat hline
      · have halone : punctuatorPiece .slash rest = (.punctuator .slash, rest) :=
          punctuatorPiece_of_alone (fun hne => absurd hnone hne) (fun _ => hhead)
        rw [match?_of_not_head h hhead, ok_bind, halone]
        exact addPunctuator_eq .slash hstart h hline
    · rename_i hslash
      have halone : punctuatorPiece p rest = (.punctuator p, rest) :=
        punctuatorPiece_of_alone (fun hne => absurd hnone hne) (fun heq => absurd heq hslash)
      rw [halone]
      exact addPunctuator_eq p hstart h hline

/-- A blank moves the cursor on, and to the next line if it is a line feed. -/
theorem blank_eq_found {first : Char} (hstart : c.start = byteSize done)
    (h : c.At source (done ++ [first]) rest) (hline : c.line = clip line) :
    (if first = '\n' then c.addLines 1 else c) =
      c.found ⟨.blank first, ⟨byteSize done, line⟩⟩ := by
  by_cases hfeed : first = '\n'
  · subst hfeed
    have hat : (c.addLines 1).At source (done ++ Piece.text (.blank '\n')) rest :=
      ⟨h.source_eq, h.current_eq⟩
    have hlines : (c.addLines 1).line =
        clip (line + (Piece.text (.blank '\n')).count '\n') := by
      show addClipped c.line (clip 1) = clip (line + 1)
      rw [hline, addClipped_clip]
    rw [if_pos rfl]
    exact eq_found (c := c.addLines 1) (.blank '\n') line rfl rfl hstart hat hlines
  · have hcount : (Piece.text (.blank first)).count '\n' = 0 :=
      List.count_eq_zero.mpr (by simpa [Piece.text] using Ne.symm hfeed)
    rw [if_neg hfeed]
    exact eq_found (.blank first) line rfl rfl hstart h (by rw [hcount, hline]; rfl)

/-- A character that begins nothing is reported. -/
theorem stray_eq_found {first : Char} (hfirst : Opening.ofChar first = .nothing)
    (hstart : c.start = byteSize done) (h : c.At source (done ++ [first]) rest)
    (hline : c.line = clip line) :
    c.report .unexpectedCharacter [String.singleton first] =
      .ok (c.found ⟨.stray first, ⟨byteSize done, line⟩⟩) := by
  have hne : first ≠ '\n' := by
    rintro rfl
    cases hfirst
  have hcount : (Piece.text (.stray first)).count '\n' = 0 :=
    List.count_eq_zero.mpr (by simpa [Piece.text] using Ne.symm hne)
  exact report_eq_found (.stray first) line rfl rfl hstart h (by rw [hcount, hline]; rfl)

/-- Behind the first character of a piece the cursor gets over the rest of it. -/
theorem scanBehind_eq (exact : skipping.Exact) {first : Char} (hstart : c.start = byteSize done)
    (h : c.At source (done ++ [first]) rest) (hline : c.line = clip line) :
    scanBehind skipping source first c =
      .ok (c.found ⟨(nextPiece first rest).1, ⟨byteSize done, line⟩⟩) := by
  rw [scanBehind, nextPiece]
  cases hopens : Opening.ofChar first with
  | blank => exact congrArg Except.ok (blank_eq_found hstart h hline)
  | quote =>
      rw [Opening.eq_quote hopens] at h
      exact exact.string_eq hstart h hline
  | digit => exact scanNumber_eq (Opening.isDigit_of_digit hopens) hstart h hline
  | punctuator p =>
      have hspelling := Punctuator.spelling_ofChar (Opening.ofChar?_of_punctuator hopens)
      rw [← hspelling] at h
      exact scanPunctuator_eq exact hstart h hline
  | nothing => exact stray_eq_found hopens hstart h hline

/-- **A round reads the next piece.** -/
theorem scanToken_eq (exact : skipping.Exact) {first : Char} (hstart : c.start = byteSize done)
    (h : c.At source done (first :: rest)) (hline : c.line = clip line) :
    scanToken skipping source c =
      .ok (c.found ⟨(nextPiece first rest).1, ⟨byteSize done, line⟩⟩) := by
  have hbehind := scanBehind_eq exact (c := c.pass first) hstart h.pass hline
  rw [scanToken, advance_eq h, ok_bind]
  exact hbehind

/-! ## The whole text -/

/-- **The rounds of a scan** read the pieces of the text in turn. -/
theorem scanFrom_eq {c : Cursor} {done rest : List Char} (place : Place) (exact : skipping.Exact)
    (h : c.At source done rest) (hoffset : place.offset = byteSize done)
    (hline : c.line = clip place.line) :
    scanFrom skipping source c = .ok ((locate place (pieces rest)).foldl found c) := by
  match rest with
  | [] =>
      rw [scanFrom, if_neg h.current_not_lt, pieces_nil, locate_nil]
      rfl
  | first :: more =>
      obtain ⟨offset, line⟩ := place
      dsimp only at hoffset hline
      subst hoffset
      -- a round starts a new lexeme where the last one ended
      have hround : scanToken skipping source { c with start := c.current } =
          .ok (c.found ⟨(nextPiece first more).1, ⟨byteSize done, line⟩⟩) :=
        scanToken_eq exact (c := { c with start := c.current }) h.current_eq
          ⟨h.source_eq, h.current_eq⟩ hline
      have hnext := h
      rw [← text_nextPiece first more] at hnext
      -- the recursion is on what the first piece leaves, which is shorter
      have hlt := length_nextPiece first more
      have hmore := scanFrom_eq (Place.after ⟨byteSize done, line⟩ (nextPiece first more).1.text)
        exact (hnext.found _ line) (byteSize_append _ _).symm rfl
      rw [pieces_cons, locate_cons, List.foldl_cons, ← hmore, scanFrom, if_pos h.current_lt]
      split
      · rename_i next hstep
        rw [hround] at hstep
        cases hstep
        rfl
      · rename_i fault hstep
        rw [hround] at hstep
        cases hstep
termination_by rest.length

theorem tokens_foldl_found (items : List Located) (c : Cursor) :
    (items.foldl found c).tokens = c.tokens ++ (items.filterMap Located.token?).toArray := by
  induction items generalizing c with
  | nil => simp
  | cons l items ih =>
      rw [List.foldl_cons, ih, found]
      cases htoken : l.token? with
      | none => simp [htoken]
      | some t => simp [htoken]

theorem diagnostics_foldl_found (items : List Located) (c : Cursor) :
    (items.foldl found c).diagnostics =
      c.diagnostics ++ (items.filterMap Located.diagnostic?).toArray := by
  induction items generalizing c with
  | nil => simp
  | cons l items ih =>
      rw [List.foldl_cons, ih, found]
      cases hfault : l.diagnostic? with
      | none => simp [hfault]
      | some d => simp [hfault]

/-- At the end the cursor is on the line that all the pieces lead to. -/
theorem line_foldl_found (place : Place) (read : List Piece) (c : Cursor)
    (hline : c.line = clip place.line) :
    ((locate place read).foldl found c).line =
      clip (place.after (read.flatMap Piece.text)).line := by
  induction read generalizing place c with
  | nil => simpa using hline
  | cons piece read ih =>
      rw [locate_cons, List.foldl_cons, ih (place.after piece.text) _ rfl, List.flatMap_cons,
        Place.after_append]

end Cursor

/-- **A scan reads the pieces of its text**, and nothing goes wrong. -/
theorem scan_eq {skipping : Skipping} (exact : skipping.Exact) (source : String) :
    Cursor.scan skipping source = .ok (Lexed.ofText source.toList) := by
  have hat : Cursor.origin.At source [] source.toList := ⟨by simp, rfl⟩
  have hrounds := Cursor.scanFrom_eq .origin exact hat rfl rfl
  have hline := Cursor.line_foldl_found .origin (pieces source.toList) .origin rfl
  rw [flatMap_text_pieces] at hline
  rw [Cursor.scan, hrounds, ok_bind, Cursor.finish, Cursor.tokens_foldl_found,
    Cursor.diagnostics_foldl_found, hline]
  simp [Lexed.ofText, located, eofToken, Cursor.origin, Place.origin, Place.after, byteSize_toList]

end LoxLexer
