import Mathlib.Data.List.Sort
import LoxLexer.Proofs.Places

/-!
# Nothing of a source is lost

The tokens and the diagnostics of a source, taken together and in the order of where they start,
cover the source but for gaps, and a gap holds blanks and comments only. `Tiled` says so: it takes
a text apart along a list of spans. That the spans of a tiling are not empty, do not overlap and
stay within the text follows from it.

`lex_reconstructed` is the main statement.
-/

set_option autoImplicit false

namespace LoxLexer

/-! ## Definitions -/

/-- Blanks and comments, in front of `behind`: each comment goes on up to a line feed or to the end
of the text. -/
inductive Gap (behind : List Char) : List Char → Prop where
  | nil : Gap behind []
  | blank {c : Char} {gap : List Char} : isBlank c → Gap behind gap → Gap behind (c :: gap)
  | comment {body gap : List Char} : '\n' ∉ body → Halts (· != '\n') (gap ++ behind) →
      Gap behind gap → Gap behind ('/' :: '/' :: (body ++ gap))

/-- **A tiling of a text**, of which the first byte has the offset `offset`: a gap, the stretch of
the first span, and so on, up to a last gap. -/
inductive Tiled : Nat → List Char → List Span → Prop where
  | last {offset : Nat} {gap : List Char} : Gap [] gap → Tiled offset gap []
  | next {offset : Nat} {gap stretch rest : List Char} {span : Span} {spans : List Span} :
      Gap (stretch ++ rest) gap → stretch ≠ [] →
      span.start.toNat = offset + byteSize gap → span.length.toNat = byteSize stretch →
      Tiled (offset + byteSize gap + byteSize stretch) rest spans →
      Tiled offset (gap ++ (stretch ++ rest)) (span :: spans)

/-- A span ends where another starts, or in front of it. -/
def Span.Before (s t : Span) : Prop := s.start.toNat + s.length.toNat ≤ t.start.toNat

/-- The spans of all diagnostics and of all tokens but the end of the source, ordered by where they
start. -/
def Lexed.spans (lexed : Lexed) : List Span :=
  let tokens := lexed.tokens.filter fun t => !t.isEof
  (tokens.map Token.span ++ lexed.diagnostics.map Diagnostic.span).mergeSort
    fun s t => s.start ≤ t.start

/-- **The source can be put together again** from its tokens and diagnostics, and gaps. -/
structure Reconstructed (source : String) (lexed : Lexed) : Prop where
  tiled : Tiled 0 source.toList lexed.spans
  not_empty : ∀ span ∈ lexed.spans, 0 < span.length.toNat
  inside : ∀ span ∈ lexed.spans, span.start.toNat + span.length.toNat ≤ source.utf8ByteSize
  disjoint : lexed.spans.Pairwise Span.Before
  /-- A token's span cuts its lexeme out of the source. -/
  lexemes : ∀ token ∈ lexed.tokens, token.span.slice? source = some token.lexeme
  tokens_in_order : lexed.tokens.Pairwise fun s t => s.span.Before t.span
  diagnostics_in_order : lexed.diagnostics.Pairwise fun s t => s.span.Before t.span
  /-- The end of the source is the last token and no other. -/
  one_eof : ∃ inner eof, lexed.tokens = inner ++ [eof] ∧ (∀ token ∈ inner, token.kind ≠ .eof) ∧
    eof.kind = .eof ∧ eof.span.start.toNat = source.utf8ByteSize ∧ eof.span.length = 0

/-! ## Tilings -/

variable {offset : Nat} {text rest : List Char} {spans : List Span} {c : Char}

/-- A blank makes the first gap longer. -/
theorem Tiled.blank (hblank : isBlank c) (h : Tiled (offset + c.utf8Size) rest spans) :
    Tiled offset (c :: rest) spans := by
  cases h with
  | last hgap => exact .last (.blank hblank hgap)
  | @next _ gap stretch rest span spans hgap hne hstart hlength hrest =>
      have hsize : offset + byteSize (c :: gap) = offset + c.utf8Size + byteSize gap := by
        rw [byteSize_cons, Nat.add_assoc]
      refine Tiled.next (.blank hblank hgap) hne (hsize ▸ hstart) hlength ?_
      rw [hsize]
      exact hrest

/-- So does a comment. -/
theorem Tiled.comment {body : List Char} (hbody : '\n' ∉ body) (hhalts : Halts (· != '\n') rest)
    (h : Tiled (offset + byteSize ('/' :: '/' :: body)) rest spans) :
    Tiled offset ('/' :: '/' :: (body ++ rest)) spans := by
  cases h with
  | last hgap =>
      refine Tiled.last (.comment hbody ?_ hgap)
      rwa [List.append_nil]
  | @next _ gap stretch rest span spans hgap hne hstart hlength hrest =>
      have hsize : offset + byteSize ('/' :: '/' :: (body ++ gap)) =
          offset + byteSize ('/' :: '/' :: body) + byteSize gap := by
        simp [Nat.add_assoc]
      have htext : '/' :: '/' :: (body ++ (gap ++ (stretch ++ rest))) =
          '/' :: '/' :: (body ++ gap) ++ (stretch ++ rest) := by
        simp
      rw [htext]
      refine Tiled.next (.comment hbody hhalts hgap) hne (hsize ▸ hstart) hlength ?_
      rw [hsize]
      exact hrest

/-- In front of a tiling without a gap, another stretch can be put. -/
theorem Tiled.stretch {stretch : List Char} {span : Span} (hne : stretch ≠ [])
    (hstart : span.start.toNat = offset) (hlength : span.length.toNat = byteSize stretch)
    (h : Tiled (offset + byteSize stretch) rest spans) :
    Tiled offset (stretch ++ rest) (span :: spans) :=
  Tiled.next .nil hne hstart hlength h

/-- The spans of a tiling are not empty and lie within the text. -/
theorem Tiled.bounds (h : Tiled offset text spans) :
    ∀ span ∈ spans, 0 < span.length.toNat ∧ offset ≤ span.start.toNat ∧
      span.start.toNat + span.length.toNat ≤ offset + byteSize text := by
  induction h with
  | last hgap => exact nofun
  | @next offset gap stretch rest span spans hgap hne hstart hlength hrest ih =>
      have hpos : 0 < byteSize stretch := byteSize_pos hne
      intro other hmem
      rw [byteSize_append, byteSize_append]
      rcases List.mem_cons.mp hmem with rfl | hlater
      · refine ⟨?_, ?_, ?_⟩ <;> omega
      · obtain ⟨hlen, hle, hend⟩ := ih other hlater
        refine ⟨hlen, ?_, ?_⟩ <;> omega

/-- They do not overlap. -/
theorem Tiled.pairwise (h : Tiled offset text spans) : spans.Pairwise Span.Before := by
  induction h with
  | last hgap => exact List.Pairwise.nil
  | @next offset gap stretch rest span spans hgap hne hstart hlength hrest ih =>
      refine List.pairwise_cons.mpr ⟨?_, ih⟩
      intro other hmem
      have hle := (hrest.bounds other hmem).2.1
      rw [Span.Before, hstart, hlength]
      exact hle

/-- Spans in a tiling start in rising order. -/
theorem Tiled.pairwise_start (h : Tiled offset text spans) :
    spans.Pairwise fun s t => s.start < t.start := by
  refine h.pairwise.imp_of_mem ?_
  intro s t hs ht hbefore
  have hpos := (h.bounds s hs).1
  rw [UInt32.lt_iff_toNat_lt]
  rw [Span.Before] at hbefore
  omega

/-! ## The pieces of a text tile it -/

/-- The spans of the pieces that are not passed over. -/
def Located.shown (items : List Located) : List Span :=
  (items.filter fun l => !l.isPassedOver).map Located.span

/-- In front of a tiling, a piece that fits can be put. -/
theorem Tiled.piece {piece : Piece} {line : Nat} {later : List Located} (hfits : piece.Fits rest)
    (hsize : offset + byteSize piece.text ≤ 2 ^ 32 - 1)
    (h : Tiled (offset + byteSize piece.text) rest (Located.shown later)) :
    Tiled offset (piece.text ++ rest) (Located.shown (⟨piece, ⟨offset, line⟩⟩ :: later)) := by
  have hstretch : Tiled offset (piece.text ++ rest)
      (Located.span ⟨piece, ⟨offset, line⟩⟩ :: Located.shown later) :=
    Tiled.stretch hfits.text_ne_nil (Span.toNat_start_covering hsize)
      (Span.toNat_length_covering hsize) h
  -- only what is passed over goes into the gap; anything else is a stretch of its own
  cases piece with
  | blank c => exact Tiled.blank hfits h
  | comment body => exact Tiled.comment hfits.1 hfits.2 h
  | _ => exact hstretch

/-- **The pieces of a text tile it.** -/
theorem tiled_shown (text : List Char) :
    ∀ place : Place, place.offset + byteSize text ≤ 2 ^ 32 - 1 →
      Tiled place.offset text (Located.shown (locate place (pieces text))) := by
  induction text using text_induction with
  | nil =>
      intro place hsize
      rw [pieces_nil, locate_nil]
      exact Tiled.last .nil
  | piece piece rest hfits ih =>
      intro place hsize
      rw [byteSize_append] at hsize
      have hle : place.offset + byteSize piece.text ≤ 2 ^ 32 - 1 := by omega
      have hrest : Tiled (place.offset + byteSize piece.text) rest
          (Located.shown (locate (place.after piece.text) (pieces rest))) :=
        ih (place.after piece.text) (Nat.add_assoc .. ▸ hsize)
      rw [pieces_append hfits, locate_cons]
      exact Tiled.piece hfits hle hrest

/-! ## Tokens and diagnostics together -/

/-- What is shown is the tokens and the diagnostics, in another order. -/
theorem perm_shown (items : List Located) :
    ((items.filterMap Located.token?).map Token.span ++
      (items.filterMap Located.diagnostic?).map Diagnostic.span).Perm (Located.shown items) := by
  induction items with
  | nil => exact List.Perm.refl []
  | cons l items ih =>
      rcases l.passedOver_or_token_or_diagnostic with ⟨hpassed, htoken, hfault⟩ |
        ⟨hpassed, ⟨t, htoken⟩, hfault⟩ | ⟨hpassed, htoken, d, hfault⟩
      · simpa [Located.shown, hpassed, htoken, hfault] using ih
      · obtain ⟨kind, literal, -, rfl⟩ := Located.of_token?_eq_some htoken
        simpa [Located.shown, hpassed, htoken, hfault] using ih.cons l.span
      · obtain ⟨template, arguments, rfl⟩ := Located.of_diagnostic?_eq_some hfault
        have hmiddle := List.perm_middle.trans (ih.cons l.span)
        simpa [Located.shown, hpassed, htoken, hfault] using hmiddle

/-- What is picked from the pieces that are not passed over is shown, in the same order. -/
theorem sublist_shown {pick : Located → Option Span}
    (hpick : ∀ l span, pick l = some span → l.isPassedOver = false ∧ span = l.span)
    (items : List Located) : (items.filterMap pick).Sublist (Located.shown items) := by
  induction items with
  | nil => exact List.Sublist.refl []
  | cons l items ih =>
      cases hpicked : pick l with
      | some span =>
          obtain ⟨hkept, rfl⟩ := hpick l span hpicked
          simpa [Located.shown, hpicked, hkept] using ih.cons_cons l.span
      | none =>
          rw [List.filterMap_cons_none hpicked]
          refine ih.trans ?_
          exact ((List.sublist_cons_self l items).filter _).map _

theorem tokens_sublist_shown (items : List Located) :
    ((items.filterMap Located.token?).map Token.span).Sublist (Located.shown items) := by
  rw [List.map_filterMap]
  apply sublist_shown
  intro l span hspan
  obtain ⟨t, htoken, rfl⟩ := Option.map_eq_some_iff.mp hspan
  obtain ⟨kind, literal, -, rfl⟩ := Located.of_token?_eq_some htoken
  rcases l.passedOver_or_token_or_diagnostic with ⟨-, hnone, -⟩ | ⟨hkept, -⟩ | ⟨hkept, -⟩
  · rw [hnone] at htoken
    cases htoken
  · exact ⟨hkept, rfl⟩
  · exact ⟨hkept, rfl⟩

theorem diagnostics_sublist_shown (items : List Located) :
    ((items.filterMap Located.diagnostic?).map Diagnostic.span).Sublist
      (Located.shown items) := by
  rw [List.map_filterMap]
  apply sublist_shown
  intro l span hspan
  obtain ⟨d, hfault, rfl⟩ := Option.map_eq_some_iff.mp hspan
  obtain ⟨template, arguments, rfl⟩ := Located.of_diagnostic?_eq_some hfault
  rcases l.passedOver_or_token_or_diagnostic with ⟨-, -, hnone⟩ | ⟨hkept, -⟩ | ⟨hkept, -⟩
  · rw [hnone] at hfault
    cases hfault
  · exact ⟨hkept, rfl⟩
  · exact ⟨hkept, rfl⟩

/-- Spans that are those of a tiling in another order are sorted into it. -/
theorem Tiled.mergeSort_eq {found : List Span} (h : Tiled offset text spans)
    (hperm : found.Perm spans) : found.mergeSort (fun s t => s.start ≤ t.start) = spans := by
  -- two sorted lists with the same spans are the same if no two spans start together
  have hsorted : (found.mergeSort fun s t => s.start ≤ t.start).Pairwise
      fun s t => s.start ≤ t.start := by
    have htrans (a b c : Span) (hab : decide (a.start ≤ b.start)) (hbc : decide (b.start ≤ c.start)) :
        decide (a.start ≤ c.start) :=
      decide_eq_true (UInt32.le_trans (of_decide_eq_true hab) (of_decide_eq_true hbc))
    have htotal (a b : Span) : decide (a.start ≤ b.start) || decide (b.start ≤ a.start) := by
      simpa using UInt32.le_total a.start b.start
    exact (List.pairwise_mergeSort htrans htotal found).imp fun hle => of_decide_eq_true hle
  have hrising : spans.Pairwise fun s t => s.start ≤ t.start :=
    h.pairwise_start.imp fun hlt => UInt32.le_of_lt hlt
  have hnodup : (spans.map Span.start).Nodup := by
    rw [List.Nodup, List.pairwise_map]
    exact h.pairwise_start.imp fun hlt => UInt32.ne_of_lt hlt
  -- spans of a tiling with the same start are the same
  have hinj : ∀ s t, s ∈ spans → t ∈ spans → s.start = t.start → s = t := fun s t hs ht heq =>
    List.inj_on_of_nodup_map hnodup hs ht heq
  refine List.Perm.eq_of_pairwise ?_ hsorted hrising ((List.mergeSort_perm _ _).trans hperm)
  intro s t hs ht hst hts
  have hs' : s ∈ spans := hperm.subset ((List.mergeSort_perm _ _).subset hs)
  exact hinj s t hs' ht (UInt32.le_antisymm hst hts)

/-! ## The source -/

variable {source : String}

theorem filter_isEof (text : List Char) :
    (Lexed.ofText text).tokens.filter (fun t => !t.isEof) =
      (located text).filterMap Located.token? := by
  have hkeep : ∀ t ∈ (located text).filterMap Located.token?, (!t.isEof) = true := by
    intro t ht
    obtain ⟨l, -, htoken⟩ := List.mem_filterMap.mp ht
    obtain ⟨kind, literal, hkind, rfl⟩ := Located.of_token?_eq_some htoken
    simpa [Token.isEof, Located.toToken] using hkind
  rw [Lexed.ofText, List.filter_append, List.filter_eq_self.mpr hkeep]
  exact List.append_nil _

/-- The spans of a text are those of its pieces, and they tile it. -/
theorem tiled_spans (text : List Char) (hsize : byteSize text ≤ 2 ^ 32 - 1) :
    (Lexed.ofText text).spans = Located.shown (located text) ∧
      Tiled 0 text (Located.shown (located text)) := by
  have htiled : Tiled 0 text (Located.shown (located text)) :=
    tiled_shown text .origin (by rw [Place.origin, Nat.zero_add]; exact hsize)
  refine ⟨?_, htiled⟩
  rw [Lexed.spans, filter_isEof]
  exact htiled.mergeSort_eq (perm_shown (located text))

/-- The spans of the tokens of a text are shown. -/
theorem span_mem_shown {t : Token} {text : List Char}
    (h : t ∈ (located text).filterMap Located.token?) :
    t.span ∈ Located.shown (located text) :=
  (tokens_sublist_shown _).subset (List.mem_map_of_mem h)

theorem toNat_start_eofToken (hsize : source.utf8ByteSize ≤ 2 ^ 32 - 1) :
    (eofToken (Place.origin.after source.toList)).span.start.toNat = source.utf8ByteSize := by
  show (clip (0 + byteSize source.toList)).toNat = _
  rw [toNat_clip, byteSize_toList]
  omega

/-- The lexeme of each token is what its span cuts out, and so is that of the end. -/
theorem slice?_of_mem_tokens (hsize : source.utf8ByteSize ≤ 2 ^ 32 - 1) {t : Token}
    (h : t ∈ (Lexed.ofText source.toList).tokens) : t.span.slice? source = some t.lexeme := by
  rcases List.mem_append.mp h with hinner | hlast
  · obtain ⟨l, hl, htoken⟩ := List.mem_filterMap.mp hinner
    obtain ⟨kind, literal, -, rfl⟩ := Located.of_token?_eq_some htoken
    exact slice?_span hsize hl
  · rw [List.mem_singleton.mp hlast]
    refine slice?_of_append source.toList [] [] ?_ ?_ rfl
    · rw [List.append_nil, List.append_nil, String.ofList_toList]
    · rw [toNat_start_eofToken hsize, byteSize_toList]

/-- The tokens of a text are in order, the end behind all others. -/
theorem pairwise_tokens (hsize : source.utf8ByteSize ≤ 2 ^ 32 - 1) :
    (Lexed.ofText source.toList).tokens.Pairwise fun s t => s.span.Before t.span := by
  obtain ⟨-, htiled⟩ := tiled_spans source.toList (by rwa [byteSize_toList])
  have hinner := htiled.pairwise.sublist (tokens_sublist_shown _)
  rw [List.pairwise_map] at hinner
  -- every token ends in front of the end of the source
  refine List.pairwise_append.mpr ⟨hinner, List.pairwise_singleton _ _, ?_⟩
  intro t ht last hlast
  have hend := (htiled.bounds _ (span_mem_shown ht)).2.2
  rw [Nat.zero_add, byteSize_toList] at hend
  rw [List.mem_singleton.mp hlast, Span.Before, toNat_start_eofToken hsize]
  exact hend

/-- The diagnostics of a text are in order. -/
theorem pairwise_diagnostics (hsize : source.utf8ByteSize ≤ 2 ^ 32 - 1) :
    (Lexed.ofText source.toList).diagnostics.Pairwise fun s t => s.span.Before t.span := by
  obtain ⟨-, htiled⟩ := tiled_spans source.toList (by rwa [byteSize_toList])
  have hsub := htiled.pairwise.sublist (diagnostics_sublist_shown _)
  rwa [List.pairwise_map] at hsub

/-- **Nothing of a source is lost.** -/
theorem lex_reconstructed (source : String) (hsize : source.utf8ByteSize ≤ 2 ^ 32 - 1) :
    Reconstructed source (lex source) := by
  obtain ⟨hspans, htiled⟩ := tiled_spans source.toList (by rwa [byteSize_toList])
  have hbounds := htiled.bounds
  rw [byteSize_toList, Nat.zero_add] at hbounds
  rw [lex_eq]
  constructor
  case tiled =>
    rw [hspans]
    exact htiled
  case not_empty =>
    rw [hspans]
    exact fun span hspan => (hbounds span hspan).1
  case inside =>
    rw [hspans]
    exact fun span hspan => (hbounds span hspan).2.2
  case disjoint =>
    rw [hspans]
    exact htiled.pairwise
  case lexemes => exact fun t ht => slice?_of_mem_tokens hsize ht
  case tokens_in_order => exact pairwise_tokens hsize
  case diagnostics_in_order =>
    have hsub := htiled.pairwise.sublist (diagnostics_sublist_shown _)
    rwa [List.pairwise_map] at hsub
  case one_eof =>
    refine ⟨_, _, rfl, ?_, rfl, toNat_start_eofToken hsize, rfl⟩
    intro t ht
    obtain ⟨l, -, htoken⟩ := List.mem_filterMap.mp ht
    obtain ⟨kind, literal, hkind, rfl⟩ := Located.of_token?_eq_some htoken
    exact hkind

/-- A source with tokens, a faulty character and a comment. -/
theorem reconstructed_mixed :
    "x1 <= 2.5//y\n\"a\n\"".utf8ByteSize ≤ 2 ^ 32 - 1 ∧
      Reconstructed "x1 <= 2.5//y\n\"a\n\"" (lex "x1 <= 2.5//y\n\"a\n\"") :=
  ⟨by decide, lex_reconstructed _ (by decide)⟩

end LoxLexer
