import LoxLexer.Proofs.Places

/-!
# The rounds of a scan

A scan reads a source in rounds, one piece in each. Many steps of a round fail where the cursor is
not in order: a character cannot be taken at the end of the source, a text cannot be cut within a
character, and a span cannot end before it starts.

None of this happens, however long the source is (`scan_in_order`). What carries the proof is that
the cursor stands behind what has been read so far, and that a round reads the next piece there
(`Reached.exists_round`). As a piece has a character at least, there are no more rounds than
characters.
-/

set_option autoImplicit false

namespace LoxLexer

namespace Cursor

/-! ## Definitions -/

/-- **The cursor of a scan after a number of rounds.** A round begins where the last one ended, as
long as that is not the end of the source. -/
inductive Reached (source : String) : Nat → Cursor → Prop where
  | origin : Reached source 0 .origin
  | round {rounds : Nat} {c next : Cursor} : Reached source rounds c →
      c.current < source.utf8ByteSize →
      scanToken .searching source { c with start := c.current } = .ok next →
      Reached source (rounds + 1) next

/-- Both offsets of a cursor are in the source and between two characters, in this order. -/
structure InOrder (source : String) (c : Cursor) : Prop where
  start_le_current : c.start ≤ c.current
  current_le_size : c.current ≤ source.utf8ByteSize
  start_valid : (⟨c.start⟩ : String.Pos.Raw).IsValid source
  current_valid : (⟨c.current⟩ : String.Pos.Raw).IsValid source

/-- A cursor is behind another one and has found what that one has found, and maybe more. -/
structure Behind (c next : Cursor) : Prop where
  current_lt : c.current < next.current
  tokens_append : ∃ added, next.tokens.toList = c.tokens.toList ++ added
  diagnostics_append : ∃ added, next.diagnostics.toList = c.diagnostics.toList ++ added

end Cursor

/-- **All of a scan is in order**: each round starts from a cursor in order, does not fail and goes
on, and the last one is at the end of the source. -/
structure ScanInOrder (source : String) : Prop where
  in_order : ∀ rounds c, Cursor.Reached source rounds c → c.InOrder source
  rounds_le : ∀ rounds c, Cursor.Reached source rounds c → rounds ≤ source.length
  proceeds : ∀ rounds c, Cursor.Reached source rounds c → c.current < source.utf8ByteSize →
    ∃ next, Cursor.scanToken .searching source { c with start := c.current } = .ok next ∧
      c.Behind next
  ends : ∃ rounds c, Cursor.Reached source rounds c ∧ c.current = source.utf8ByteSize ∧
    Cursor.scanFrom .searching source .origin = .ok c ∧
    Cursor.scan .searching source = .ok (c.finish source) ∧ lex source = c.finish source
  token_spans : ∀ t ∈ (lex source).tokens, ∃ stop, t.span.stop = .ok stop
  diagnostic_spans : ∀ d ∈ (lex source).diagnostics, ∃ stop, d.span.stop = .ok stop

namespace Cursor

variable {source : String} {c next : Cursor} {rounds : Nat} {done rest : List Char}

/-! ## What has been read -/

/-- Between two characters an offset is valid. -/
theorem isValid_of_append (hs : source = String.ofList (done ++ rest)) :
    (⟨byteSize done⟩ : String.Pos.Raw).IsValid source := by
  obtain ⟨here, hpos, -⟩ := positionAt_eq hs
  rw [positionAt] at hpos
  split at hpos
  · assumption
  · cases hpos

/-- **A cursor stands behind what has been read**, of which `lexeme` was read last, and each round
has read a character at least. -/
structure Stands (source : String) (rounds : Nat) (c : Cursor) (before lexeme rest : List Char) :
    Prop where
  at_end : c.At source (before ++ lexeme) rest
  start_eq : c.start = byteSize before
  rounds_le : rounds ≤ (before ++ lexeme).length

variable {before lexeme : List Char}

theorem Stands.inOrder (h : Stands source rounds c before lexeme rest) : c.InOrder source where
  start_le_current := by
    rw [h.start_eq, h.at_end.current_eq, byteSize_append]
    exact Nat.le_add_right _ _
  current_le_size := h.at_end.current_le
  start_valid := by
    rw [h.start_eq]
    exact isValid_of_append (by rw [h.at_end.source_eq, List.append_assoc])
  current_valid := by
    rw [h.at_end.current_eq]
    exact isValid_of_append h.at_end.source_eq

/-- In front of the end of the source there is a character. -/
theorem Stands.exists_next (h : Stands source rounds c before lexeme rest)
    (hlt : c.current < source.utf8ByteSize) : ∃ first more, rest = first :: more := by
  cases rest with
  | nil => exact absurd hlt h.at_end.current_not_lt
  | cons first more => exact ⟨first, more, rfl⟩

/-! ## One round -/

theorem behind_found (l : Located) (hlt : c.current < l.stop.offset) : c.Behind (c.found l) where
  current_lt := hlt
  tokens_append := ⟨l.token?.toList, by simp [found]⟩
  diagnostics_append := ⟨l.diagnostic?.toList, by simp [found]⟩

/-- **A round reads the next piece**, from wherever a cursor stands. -/
theorem Stands.exists_round (h : Stands source rounds c before lexeme rest)
    (hlt : c.current < source.utf8ByteSize) :
    ∃ next piece rest', scanToken .searching source { c with start := c.current } = .ok next ∧
      c.Behind next ∧ Stands source (rounds + 1) next (before ++ lexeme) piece rest' := by
  obtain ⟨first, more, rfl⟩ := h.exists_next hlt
  -- the lexeme starts here, and the line is what the cursor says
  have hround : scanToken .searching source { c with start := c.current } =
      .ok (found { c with start := c.current }
        ⟨(nextPiece first more).1, ⟨byteSize (before ++ lexeme), c.line.toNat⟩⟩) :=
    scanToken_eq Skipping.exact_searching h.at_end.current_eq
      ⟨h.at_end.source_eq, h.at_end.current_eq⟩ (clip_toNat c.line).symm
  have hat := h.at_end
  rw [← text_nextPiece first more] at hat
  have hne : (nextPiece first more).1.text ≠ [] := (fits_nextPiece first more).text_ne_nil
  have hpos := byteSize_pos hne
  have hlength := List.length_pos_iff.mpr hne
  have hrounds := h.rounds_le
  refine ⟨_, (nextPiece first more).1.text, (nextPiece first more).2, hround, ?_, ?_⟩
  · refine behind_found _ ?_
    rw [h.at_end.current_eq]
    exact Nat.lt_add_of_pos_right hpos
  · refine ⟨hat.found _ c.line.toNat, rfl, ?_⟩
    rw [List.length_append]
    omega

/-! ## All rounds -/

/-- **After any number of rounds** the cursor stands behind what has been read. -/
theorem Reached.exists_stands (h : Reached source rounds c) :
    ∃ before lexeme rest, Stands source rounds c before lexeme rest := by
  induction h with
  | origin => exact ⟨[], [], source.toList, ⟨by simp, rfl⟩, rfl, Nat.zero_le _⟩
  | round _ hlt hround ih =>
      obtain ⟨before, lexeme, rest, hstands⟩ := ih
      obtain ⟨next, piece, rest', hround', -, hnext⟩ := hstands.exists_round hlt
      rw [hround] at hround'
      cases hround'
      exact ⟨_, piece, rest', hnext⟩

/-- What a scan comes to is what it comes to from any cursor that it reaches. -/
theorem scanFrom_of_round (hlt : c.current < source.utf8ByteSize)
    (hround : scanToken .searching source { c with start := c.current } = .ok next) :
    scanFrom .searching source c = scanFrom .searching source next := by
  rw [scanFrom, if_pos hlt]
  split
  · rename_i next' hround'
    rw [hround] at hround'
    cases hround'
    rfl
  · rename_i fault hround'
    rw [hround] at hround'
    cases hround'

theorem Reached.scanFrom_eq (h : Reached source rounds c) :
    scanFrom .searching source .origin = scanFrom .searching source c := by
  induction h with
  | origin => rfl
  | round _ hlt hround ih => rw [ih, scanFrom_of_round hlt hround]

/-- From a cursor that is reached the end is reached. -/
theorem Reached.exists_end {rounds : Nat} {c : Cursor} (h : Reached source rounds c) :
    ∃ rounds last, Reached source rounds last ∧ last.current = source.utf8ByteSize := by
  obtain ⟨before, lexeme, rest, hstands⟩ := h.exists_stands
  by_cases hlt : c.current < source.utf8ByteSize
  · obtain ⟨next, piece, rest', hround, hbehind, -⟩ := hstands.exists_round hlt
    have hcloser := hbehind.current_lt
    exact (h.round hlt hround).exists_end
  · have hle := hstands.inOrder.current_le_size
    exact ⟨rounds, c, h, Nat.le_antisymm hle (Nat.le_of_not_lt hlt)⟩
termination_by source.utf8ByteSize - c.current

end Cursor

/-! ## The scan -/

theorem stop_of_located (l : Located) : ∃ stop, l.span.stop = .ok stop :=
  ⟨_, Span.stop_covering _ _⟩

/-- **A scan is in order from its start to its end**, whatever the source. -/
theorem scan_in_order (source : String) : ScanInOrder source := by
  constructor
  case in_order =>
    intro rounds c hreached
    obtain ⟨before, lexeme, rest, hstands⟩ := hreached.exists_stands
    exact hstands.inOrder
  case rounds_le =>
    intro rounds c hreached
    obtain ⟨before, lexeme, rest, hstands⟩ := hreached.exists_stands
    have hsource : source.length = (before ++ lexeme).length + rest.length := by
      rw [hstands.at_end.source_eq, String.length_ofList, List.length_append]
    have hrounds := hstands.rounds_le
    omega
  case proceeds =>
    intro rounds c hreached hlt
    obtain ⟨before, lexeme, rest, hstands⟩ := hreached.exists_stands
    obtain ⟨next, -, -, hround, hbehind, -⟩ := hstands.exists_round hlt
    exact ⟨next, hround, hbehind⟩
  case ends =>
    have hstart : Cursor.Reached source 0 .origin := .origin
    obtain ⟨rounds, last, hlast, hend⟩ := hstart.exists_end
    have hrounds : Cursor.scanFrom .searching source .origin = .ok last := by
      rw [hlast.scanFrom_eq, Cursor.scanFrom, if_neg (by omega)]
    have hscan : Cursor.scan .searching source = .ok (last.finish source) := by
      rw [Cursor.scan, hrounds, ok_bind]
      rfl
    refine ⟨rounds, last, hlast, hend, hrounds, hscan, ?_⟩
    rw [scan_searching] at hscan
    exact Except.ok.inj hscan
  case token_spans =>
    rw [lex_eq]
    refine forall_tokens ?_ ⟨_, Span.stop_empty _⟩
    intro l _ t htoken
    obtain ⟨kind, literal, -, rfl⟩ := Located.of_token?_eq_some htoken
    exact stop_of_located l
  case diagnostic_spans =>
    rw [lex_eq]
    refine forall_diagnostics ?_
    intro l _ d hfault
    obtain ⟨template, arguments, rfl⟩ := Located.of_diagnostic?_eq_some hfault
    exact stop_of_located l

end LoxLexer
