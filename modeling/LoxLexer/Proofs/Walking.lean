import LoxLexer.Lex

/-!
# Skipping character by character

The plain way over a comment or a string is to walk: to look at each character, to stop at a line
feed or at the closing quote, and to go to the next line at each line feed of a string. A scan that
walks is what the rules of the language describe, and searching for bytes is a shortcut.

`scan_searching_and_walking` says that the shortcut makes no difference for any text: the
tokens, the diagnostics and their lines and spans are the same. For it, walking is shown to be
`Exact` (`Skipping.exact_walking`), as searching is, and all exact ways lead to the same scan.
-/

set_option autoImplicit false

namespace LoxLexer

namespace Cursor

/-! ## Definitions -/

/-- Goes on behind two slashes, up to the next line feed or the end of the text. -/
def walkComment (source : String) (c : Cursor) : Except Fault Cursor :=
  if c.current < source.utf8ByteSize then do
    let next ← c.peek source
    if next = '\n' then return c else walkComment source (c.pass next)
  else return c
termination_by source.utf8ByteSize - c.current
decreasing_by
  have := next.utf8Size_pos
  simp only [pass]
  omega

/-- Goes on to the next quote or to the end of the text, over one line after the other. -/
def walkToQuote (source : String) (c : Cursor) : Except Fault Cursor :=
  if c.current < source.utf8ByteSize then do
    let next ← c.peek source
    if next = '"' then return c
    else if next = '\n' then walkToQuote source ((c.pass next).addLines 1)
    else walkToQuote source (c.pass next)
  else return c
termination_by source.utf8ByteSize - c.current
decreasing_by
  all_goals
    have := next.utf8Size_pos
    simp only [pass, addLines]
    omega

/-- Goes on behind an opening quote, up to and past the next quote or up to the end of the text. -/
def walkString (source : String) (c : Cursor) : Except Fault Cursor := do
  let stopped ← walkToQuote source c
  if stopped.current < source.utf8ByteSize then
    let body ← slice source c.current stopped.current
    let (_, closed) ← stopped.advance source
    closed.addToken source .string (.string body)
  else stopped.report .unterminatedString []

/-! ## Walking goes on -/

variable {source : String}

theorem current_le_of_walkComment {c next : Cursor} (h : walkComment source c = .ok next) :
    c.current ≤ next.current := by
  rw [walkComment] at h
  split at h
  · obtain ⟨d, -, h⟩ := of_bind_eq_ok h
    split at h
    · cases h
      exact Nat.le_refl _
    · have hpass : c.current < (c.pass d).current := Nat.lt_add_of_pos_right d.utf8Size_pos
      have hrest := current_le_of_walkComment h
      omega
  · cases h
    exact Nat.le_refl _
termination_by source.utf8ByteSize - c.current

theorem current_le_of_walkToQuote {c next : Cursor} (h : walkToQuote source c = .ok next) :
    c.current ≤ next.current := by
  rw [walkToQuote] at h
  split at h
  · obtain ⟨d, -, h⟩ := of_bind_eq_ok h
    have hpass : c.current < (c.pass d).current := Nat.lt_add_of_pos_right d.utf8Size_pos
    split at h
    · cases h
      exact Nat.le_refl _
    · split at h
      · have hline : ((c.pass d).addLines 1).current = (c.pass d).current := rfl
        have hrest := current_le_of_walkToQuote h
        omega
      · have hrest := current_le_of_walkToQuote h
        omega
  · cases h
    exact Nat.le_refl _
termination_by source.utf8ByteSize - c.current

theorem current_le_of_walkString {c next : Cursor} (h : walkString source c = .ok next) :
    c.current ≤ next.current := by
  obtain ⟨stopped, hwalk, h⟩ := of_bind_eq_ok h
  have hstopped := current_le_of_walkToQuote hwalk
  split at h
  · obtain ⟨body, -, h⟩ := of_bind_eq_ok h
    obtain ⟨⟨quote, closed⟩, hadvance, h⟩ := of_bind_eq_ok h
    have hclosed := current_lt_of_advance hadvance
    have hnext := current_of_addToken h
    omega
  · have hnext := current_of_report h
    omega

end Cursor

/-- **Plain skipping**: the end of a comment or string is found by looking at each character. -/
def Skipping.walking : Skipping where
  comment := Cursor.walkComment
  string := Cursor.walkString
  comment_le := Cursor.current_le_of_walkComment
  string_le := Cursor.current_le_of_walkString

/-! ## Walking finds the end -/

namespace Cursor

variable {source : String} {c : Cursor} {done rest : List Char} {line : Nat}

theorem walkComment_eq {c : Cursor} {done rest : List Char} (h : c.At source done rest) :
    walkComment source c =
      .ok { c with current := byteSize (done ++ rest.takeWhile (· != '\n')) } := by
  induction rest generalizing c done with
  | nil =>
      rw [walkComment, if_neg h.current_not_lt, List.takeWhile_nil, List.append_nil,
        ← h.current_eq]
      rfl
  | cons d rest ih =>
      rw [walkComment, if_pos h.current_lt, peek_of_cons h, ok_bind]
      by_cases hfeed : d = '\n'
      · subst hfeed
        rw [if_pos rfl, List.takeWhile_cons_of_neg (by decide), List.append_nil, ← h.current_eq]
        rfl
      · rw [if_neg hfeed, ih h.pass, List.takeWhile_cons_of_pos (by simpa using hfeed),
          List.append_assoc, List.singleton_append]
        rfl

/-- At a quote and at the end of the text walking stops. -/
theorem walkToQuote_of_halts (hrest : Halts (· != '"') rest) (h : c.At source done rest) :
    walkToQuote source c = .ok c := by
  cases rest with
  | nil =>
      rw [walkToQuote, if_neg h.current_not_lt]
      rfl
  | cons d rest =>
      have hquote : d = '"' := by simpa using hrest d rfl
      rw [walkToQuote, if_pos h.current_lt, peek_of_cons h, ok_bind, if_pos hquote]
      rfl

/-- Up to there it counts the lines one by one. -/
theorem walkToQuote_eq {body : List Char} (hbody : '"' ∉ body) (hrest : Halts (· != '"') rest)
    (h : c.At source done (body ++ rest)) (hline : c.line = clip line) :
    walkToQuote source c = .ok { c with
      current := byteSize (done ++ body)
      line := clip (line + body.count '\n') } := by
  induction body generalizing c done line with
  | nil =>
      rw [walkToQuote_of_halts hrest h, List.append_nil, ← h.current_eq, List.count_nil,
        Nat.add_zero, ← hline]
  | cons d body ih =>
      have hd : d ≠ '"' := fun heq => hbody (heq ▸ List.mem_cons_self ..)
      have hbody' : '"' ∉ body := fun hmem => hbody (List.mem_cons_of_mem d hmem)
      rw [walkToQuote, if_pos h.current_lt, peek_of_cons h, ok_bind, if_neg hd]
      by_cases hfeed : d = '\n'
      · -- a line feed is passed as any other character is, and counted
        have hat : ((c.pass d).addLines 1).At source (done ++ [d]) (body ++ rest) :=
          ⟨h.pass.source_eq, h.pass.current_eq⟩
        have hline' : ((c.pass d).addLines 1).line = clip (line + 1) := by
          show addClipped c.line (clip 1) = _
          rw [hline, addClipped_clip]
        rw [if_pos hfeed, ih hbody' hat hline', hfeed, List.count_cons_self]
        simp [Cursor.pass, addLines, Nat.add_assoc, Nat.add_comm 1]
      · rw [if_neg hfeed, ih hbody' h.pass hline, List.count_cons_of_ne hfeed]
        simp [Cursor.pass]

/-- A closed string: the walk stops at its quote. -/
theorem walkString_of_closed {body after : List Char} (hbody : '"' ∉ body)
    (hstart : c.start = byteSize done)
    (h : c.At source (done ++ ['"']) (body ++ '"' :: after)) (hline : c.line = clip line) :
    walkString source c = .ok (c.found ⟨.string body, ⟨byteSize done, line⟩⟩) := by
  have hquote : Halts (· != '"') ('"' :: after) := halts_cons (by decide)
  have hslice : slice source c.current (byteSize (done ++ ['"'] ++ body)) =
      .ok (String.ofList body) := by
    rw [h.current_eq]
    exact slice_eq (by rw [h.source_eq, List.append_assoc _ body])
  -- the cursor in front of the closing quote, with the lines counted
  obtain ⟨stopped, hstopped⟩ : ∃ stopped : Cursor, stopped = { c with
      current := byteSize (done ++ ['"'] ++ body)
      line := clip (line + body.count '\n') } := ⟨_, rfl⟩
  have hat : stopped.At source (done ++ ['"'] ++ body) ('"' :: after) := by
    rw [hstopped]
    exact ⟨by rw [h.source_eq, List.append_assoc _ body], rfl⟩
  have hclosed : (stopped.pass '"').At source (done ++ ('"' :: body ++ ['"'])) after := by
    have hpass := hat.pass
    rwa [List.append_assoc, List.append_assoc] at hpass
  have hadd : (stopped.pass '"').addToken source .string (.string (String.ofList body)) =
      .ok (stopped.found ⟨.string body, ⟨byteSize done, line⟩⟩) :=
    addString_eq (by rw [hstopped]; exact hstart) hclosed (by rw [hstopped]; rfl)
  have hcurrent : stopped.current = byteSize (done ++ ['"'] ++ body) := hat.current_eq
  rw [walkString, walkToQuote_eq hbody hquote h hline, ← hstopped, ok_bind, if_pos hat.current_lt,
    hcurrent, hslice, ok_bind, advance_eq hat, ok_bind]
  rw [hstopped] at hadd ⊢
  exact hadd

/-- A string that is not closed: the walk goes on to the end of the text. -/
theorem walkString_of_unclosed (hrest : '"' ∉ rest) (hstart : c.start = byteSize done)
    (h : c.At source (done ++ ['"']) rest) (hline : c.line = clip line) :
    walkString source c = .ok (c.found ⟨.unclosed rest, ⟨byteSize done, line⟩⟩) := by
  -- the walk stops for want of characters, in front of no more text
  rw [← List.append_nil rest] at h
  obtain ⟨stopped, hstopped⟩ : ∃ stopped : Cursor, stopped = { c with
      current := byteSize (done ++ ['"'] ++ rest)
      line := clip (line + rest.count '\n') } := ⟨_, rfl⟩
  have hat : stopped.At source (done ++ '"' :: rest) [] := by
    rw [hstopped]
    exact ⟨by rw [h.source_eq]; simp, by simp⟩
  have hreport : stopped.report .unterminatedString [] =
      .ok (stopped.found ⟨.unclosed rest, ⟨byteSize done, line⟩⟩) :=
    reportUnclosed_eq (by rw [hstopped]; exact hstart) hat (by rw [hstopped])
  rw [walkString, walkToQuote_eq hrest halts_nil h hline, ← hstopped, ok_bind,
    if_neg hat.current_not_lt, hreport, hstopped]
  rfl

theorem walkString_eq (hstart : c.start = byteSize done) (h : c.At source (done ++ ['"']) rest)
    (hline : c.line = clip line) :
    walkString source c = .ok (c.found ⟨(stringPiece rest).1, ⟨byteSize done, line⟩⟩) := by
  by_cases hmem : '"' ∈ rest
  · obtain ⟨body, after, rfl, hbody⟩ := List.eq_append_cons_of_mem hmem
    rw [stringPiece_of_closed hbody]
    exact walkString_of_closed hbody hstart h hline
  · rw [stringPiece_of_unclosed hmem]
    exact walkString_of_unclosed hmem hstart h hline

end Cursor

/-- **Walking stops where it should**, and counts the lines on the way. -/
theorem Skipping.exact_walking : walking.Exact where
  comment_eq := Cursor.walkComment_eq
  string_eq := Cursor.walkString_eq

/-- **Searching and walking find the same**: both scans of a text come to their end, with the same
tokens and diagnostics. -/
theorem scan_searching_and_walking (source : String) :
    Cursor.scan .searching source = .ok (lex source) ∧
      Cursor.scan .walking source = .ok (lex source) := by
  refine ⟨scan_searching source, ?_⟩
  rw [scan_eq Skipping.exact_walking, lex_eq]

end LoxLexer
