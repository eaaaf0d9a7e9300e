import LoxLexer.Cursor.Pieces

/-!
# Skipping by search

The ends of comments and strings are easy to find: a line feed ends the one and a quote the other,
and each is a single byte that is part of no other character. So a scan searches the bytes of the
text for them, and counts the line feeds that it jumps over.

`Skipping.exact_searching` says that this stops at the right places and counts right.
-/

set_option autoImplicit false

namespace LoxLexer

namespace Cursor

/-! ## Definitions -/

/-- Goes on behind two slashes, up to the next line feed or the end of the text. -/
def searchComment (source : String) (c : Cursor) : Except Fault Cursor :=
  if c.current ≤ source.utf8ByteSize then
    match findByte source '\n'.toUInt8 c.current with
    | some lineFeed => return { c with current := lineFeed }
    | none => return { c with current := source.utf8ByteSize }
  else throw (.brokenText c.current)

/-- The number of line feeds from here up to an offset. -/
def countLineFeeds (source : String) (c : Cursor) (stop : Nat) : Nat :=
  countByte source '\n'.toUInt8 stop 0 c.current

/-- Goes on behind an opening quote, up to and past the next quote or up to the end of the text. -/
def searchString (source : String) (c : Cursor) : Except Fault Cursor :=
  if c.current ≤ source.utf8ByteSize then
    match findByte source '"'.toUInt8 c.current with
    | some close => do
        let body ← slice source c.current close
        let counted := c.addLines (countLineFeeds source c close)
        { counted with current := close + 1 }.addToken source .string (.string body)
    | none =>
        let counted := c.addLines (countLineFeeds source c source.utf8ByteSize)
        { counted with current := source.utf8ByteSize }.report .unterminatedString []
  else throw (.brokenText c.current)

/-! ## Searching goes on -/

variable {source : String} {c next : Cursor}

theorem le_of_findByte {byte : UInt8} {offset found : Nat}
    (h : findByte source byte offset = some found) : offset ≤ found := by
  rw [findByte_eq_findIdx?, Option.map_eq_some_iff] at h
  obtain ⟨i, -, h⟩ := h
  omega

theorem current_le_of_searchComment (h : searchComment source c = .ok next) :
    c.current ≤ next.current := by
  rw [searchComment] at h
  split at h
  · split at h
    · rename_i hfound
      cases h
      exact le_of_findByte hfound
    · cases h
      assumption
  · cases h

theorem current_le_of_searchString (h : searchString source c = .ok next) :
    c.current ≤ next.current := by
  rw [searchString] at h
  split at h
  · split at h
    · rename_i close hfound
      obtain ⟨body, -, h⟩ := of_bind_eq_ok h
      have h₁ : next.current = close + 1 := current_of_addToken h
      have h₂ := le_of_findByte hfound
      omega
    · have h₁ : next.current = source.utf8ByteSize := current_of_report h
      omega
  · cases h

end Cursor

/-- **Fast skipping**: the end of a comment or string is found by searching for its byte. -/
def Skipping.searching : Skipping where
  comment := Cursor.searchComment
  string := Cursor.searchString
  comment_le := Cursor.current_le_of_searchComment
  string_le := Cursor.current_le_of_searchString

/-! ## Searching finds the end -/

namespace Cursor

variable {source : String} {c : Cursor} {done rest : List Char} {line : Nat}

theorem At.current_le (h : c.At source done rest) : c.current ≤ source.utf8ByteSize := by
  rw [h.source_eq, h.current_eq, utf8ByteSize_ofList, byteSize_append]
  exact Nat.le_add_right _ _

theorem At.size_eq (h : c.At source done rest) :
    source.utf8ByteSize = byteSize (done ++ rest) := by
  rw [h.source_eq, utf8ByteSize_ofList]

theorem searchComment_eq (h : c.At source done rest) :
    searchComment source c =
      .ok { c with current := byteSize (done ++ rest.takeWhile (· != '\n')) } := by
  rw [searchComment, if_pos h.current_le, h.current_eq]
  by_cases hmem : '\n' ∈ rest
  · obtain ⟨body, after, rfl, hbody⟩ := List.eq_append_cons_of_mem hmem
    have hfeed : Halts (· != '\n') ('\n' :: after) := halts_cons (by decide)
    have htake := takeWhile_append_of_halts (bne_of_not_mem hbody) hfeed
    rw [findByte_of_not_mem (by decide) hbody h.source_eq, htake]
    rfl
  · have htake := takeWhile_append_of_halts (bne_of_not_mem hmem) halts_nil
    rw [List.append_nil] at htake
    rw [findByte_eq_none (by decide) hmem h.source_eq, htake, ← h.size_eq]
    rfl

/-- A closed string: the search stops at its quote. -/
theorem searchString_of_closed {body after : List Char} (hbody : '"' ∉ body)
    (hstart : c.start = byteSize done)
    (h : c.At source (done ++ ['"']) (body ++ '"' :: after)) (hline : c.line = clip line) :
    searchString source c = .ok (c.found ⟨.string body, ⟨byteSize done, line⟩⟩) := by
  have hfound : findByte source '"'.toUInt8 c.current =
      some (byteSize (done ++ ['"'] ++ body)) := by
    rw [h.current_eq]
    exact findByte_of_not_mem (by decide) hbody h.source_eq
  have hslice : slice source c.current (byteSize (done ++ ['"'] ++ body)) =
      .ok (String.ofList body) := by
    rw [h.current_eq]
    exact slice_eq (by rw [h.source_eq, List.append_assoc _ body])
  have hcount : countLineFeeds source c (byteSize (done ++ ['"'] ++ body)) = body.count '\n' := by
    rw [countLineFeeds, h.current_eq]
    exact countByte_eq (by decide) h.source_eq
  have hline' : (c.addLines (body.count '\n')).line = clip (line + body.count '\n') := by
    rw [addLines, hline, addClipped_clip]
  -- the offset behind the closing quote, which is one byte
  have hat : ({ c.addLines (body.count '\n') with
      current := byteSize (done ++ ['"'] ++ body) + 1 } : Cursor).At source
      (done ++ ('"' :: body ++ ['"'])) after :=
    ⟨by rw [h.source_eq]; simp, by simp [show '"'.utf8Size = 1 from rfl, Nat.add_assoc]⟩
  rw [searchString, if_pos h.current_le, hfound]
  show (slice source c.current (byteSize (done ++ ['"'] ++ body)) >>= _) = _
  rw [hslice, ok_bind, hcount]
  exact addString_eq hstart hat hline'

/-- A string that is not closed: the search goes on to the end of the text. -/
theorem searchString_of_unclosed (hrest : '"' ∉ rest) (hstart : c.start = byteSize done)
    (h : c.At source (done ++ ['"']) rest) (hline : c.line = clip line) :
    searchString source c = .ok (c.found ⟨.unclosed rest, ⟨byteSize done, line⟩⟩) := by
  have hnone : findByte source '"'.toUInt8 c.current = none := by
    rw [h.current_eq]
    exact findByte_eq_none (by decide) hrest h.source_eq
  have hcount : countLineFeeds source c source.utf8ByteSize = rest.count '\n' := by
    -- the stretch that is counted goes up to the end of the text
    have hsource : source = String.ofList (done ++ ['"'] ++ (rest ++ [])) := by
      rw [h.source_eq, List.append_nil]
    rw [countLineFeeds, h.current_eq, h.size_eq]
    exact countByte_eq (by decide) hsource
  have hline' : (c.addLines (rest.count '\n')).line = clip (line + rest.count '\n') := by
    rw [addLines, hline, addClipped_clip]
  have hat : ({ c.addLines (rest.count '\n') with current := source.utf8ByteSize } :
      Cursor).At source (done ++ '"' :: rest) [] :=
    ⟨by rw [h.source_eq]; simp, h.size_eq.trans (by simp)⟩
  rw [searchString, if_pos h.current_le, hnone, hcount]
  exact reportUnclosed_eq hstart hat hline'

theorem searchString_eq (hstart : c.start = byteSize done) (h : c.At source (done ++ ['"']) rest)
    (hline : c.line = clip line) :
    searchString source c = .ok (c.found ⟨(stringPiece rest).1, ⟨byteSize done, line⟩⟩) := by
  by_cases hmem : '"' ∈ rest
  · obtain ⟨body, after, rfl, hbody⟩ := List.eq_append_cons_of_mem hmem
    rw [stringPiece_of_closed hbody]
    exact searchString_of_closed hbody hstart h hline
  · rw [stringPiece_of_unclosed hmem]
    exact searchString_of_unclosed hmem hstart h hline

end Cursor

/-- **Searching stops where it should**, and counts the lines on the way. -/
theorem Skipping.exact_searching : searching.Exact where
  comment_eq := Cursor.searchComment_eq
  string_eq := Cursor.searchString_eq

end LoxLexer
