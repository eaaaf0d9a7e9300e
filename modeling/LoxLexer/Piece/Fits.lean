import LoxLexer.Piece.Reading

/-!
# Where pieces fit

A piece fits in front of a text if it ends there: if the text does not go on with it, and it is
what such a piece may be in itself. `Piece.Fits` says for each kind of piece what this comes to.

A reader takes a piece off a text exactly where it fits: what `nextPiece` takes fits in front of
what it leaves (`fits_nextPiece`), and a piece that fits is taken (`pieces_append`). So a text is
empty, or a piece in front of a text that it fits, and this is how to reason about all texts
(`text_induction`).
-/

set_option autoImplicit false

namespace LoxLexer

/-! ## Definitions -/

/-- There are digits, and a point and a digit do not follow if there is no fraction yet. -/
structure Numeral.Fits (n : Numeral) (rest : List Char) : Prop where
  wellFormed : n.WellFormed
  halts : Halts Char.isDigit rest
  no_point : n.fraction = none → ∀ d more, rest = '.' :: d :: more → d.isDigit = false

/-- **The piece ends in front of `rest`.** -/
def Piece.Fits (rest : List Char) : Piece → Prop
  | punctuator p =>
      (p.withEqual? ≠ none → rest.head? ≠ some '=') ∧ (p = .slash → rest.head? ≠ some '/')
  | string body => '"' ∉ body
  | numeral n => n.Fits rest
  | blank c => isBlank c
  | comment body => '\n' ∉ body ∧ Halts (· != '\n') rest
  | stray c => Opening.ofChar c = .nothing
  | unclosed body => '"' ∉ body ∧ rest = []

variable {piece : Piece} {c : Char} {rest : List Char}

/-! ## What is taken fits -/

theorem fits_stringPiece (rest : List Char) : (stringPiece rest).1.Fits (stringPiece rest).2 := by
  by_cases hmem : '"' ∈ rest
  · obtain ⟨body, after, rfl, hbody⟩ := List.eq_append_cons_of_mem hmem
    rw [stringPiece_of_closed hbody]
    exact hbody
  · rw [stringPiece_of_unclosed hmem]
    exact ⟨hmem, rfl⟩

theorem fits_commentPiece (rest : List Char) :
    (commentPiece rest).1.Fits (commentPiece rest).2 :=
  ⟨not_mem_takeWhile '\n' rest, halts_dropWhile _ rest⟩

theorem fits_numeralPiece (hdigit : c.isDigit) (rest : List Char) :
    (numeralPiece c rest).1.Fits (numeralPiece c rest).2 := by
  obtain ⟨digits, behind, rfl, hdigits, hhalts⟩ := exists_run Char.isDigit rest
  have hwhole : ∀ d ∈ c :: digits, d.isDigit := List.forall_mem_cons.mpr ⟨hdigit, hdigits⟩
  rw [numeralPiece_append hdigits hhalts]
  rcases fraction_or_not behind with ⟨decimals, after, rfl, hne, hdecimals, hafter⟩ | hnone
  · have hn := Numeral.wellFormed_decimal (List.cons_ne_nil c digits) hwhole hne hdecimals
    rw [fractionPiece_of_point hne hdecimals hafter]
    exact ⟨hn, hafter, fun hinteger => by cases hinteger⟩
  · have hn := Numeral.wellFormed_integer (List.cons_ne_nil c digits) hwhole
    rw [fractionPiece_of_no_point hnone]
    exact ⟨hn, hhalts, fun _ => hnone⟩

theorem fits_punctuatorPiece (p : Punctuator) (rest : List Char) :
    (punctuatorPiece p rest).1.Fits (punctuatorPiece p rest).2 := by
  by_cases hequal : p.withEqual? ≠ none ∧ rest.head? = some '='
  · -- the longer punctuator is not lengthened again
    obtain ⟨hlonger, hhead⟩ := hequal
    obtain ⟨more, rfl⟩ := List.head?_eq_some_iff.mp hhead
    obtain ⟨q, hq⟩ := Option.ne_none_iff_exists'.mp hlonger
    rw [punctuatorPiece_of_equal hq]
    refine ⟨fun hagain => absurd (Punctuator.withEqual?_withEqual hq) hagain, ?_⟩
    rintro rfl
    exact absurd hq (by cases p <;> exact nofun)
  · by_cases hslash : p = .slash ∧ rest.head? = some '/'
    · obtain ⟨rfl, hhead⟩ := hslash
      obtain ⟨more, rfl⟩ := List.head?_eq_some_iff.mp hhead
      rw [punctuatorPiece_slash_slash]
      exact fits_commentPiece more
    · -- nothing that follows belongs to the punctuator
      have hfits : (p.withEqual? ≠ none → rest.head? ≠ some '=') ∧
          (p = .slash → rest.head? ≠ some '/') :=
        ⟨fun h h' => hequal ⟨h, h'⟩, fun h h' => hslash ⟨h, h'⟩⟩
      rw [punctuatorPiece_of_alone hfits.1 hfits.2]
      exact hfits

/-- **What is taken fits** in front of what is left. -/
theorem fits_nextPiece (c : Char) (rest : List Char) :
    (nextPiece c rest).1.Fits (nextPiece c rest).2 := by
  rw [nextPiece]
  split
  · rename_i hopens
    exact Opening.isBlank_of_blank hopens
  · exact fits_stringPiece rest
  · rename_i hopens
    exact fits_numeralPiece (Opening.isDigit_of_digit hopens) rest
  · exact fits_punctuatorPiece _ rest
  · assumption

/-! ## What fits is taken -/

theorem nextPiece_of_fits_numeral {n : Numeral} (h : n.Fits rest) :
    ∃ c more, n.text ++ rest = c :: more ∧ nextPiece c more = (.numeral n, rest) := by
  obtain ⟨whole, fraction⟩ := n
  cases whole with
  | nil => exact absurd rfl h.wellFormed.whole_ne_nil
  | cons c digits =>
      have hdigit : c.isDigit := h.wellFormed.isDigit_whole c (List.mem_cons_self ..)
      have hdigits : ∀ d ∈ digits, d.isDigit := fun d hd =>
        h.wellFormed.isDigit_whole d (List.mem_cons_of_mem c hd)
      cases fraction with
      | none =>
          refine ⟨c, digits ++ rest, rfl, ?_⟩
          rw [nextPiece, Opening.ofChar_of_isDigit hdigit]
          show numeralPiece c (digits ++ rest) = _
          rw [numeralPiece_append hdigits h.halts, fractionPiece_of_no_point (h.no_point rfl)]
      | some decimals =>
          have hne := h.wellFormed.fraction_ne_nil decimals rfl
          have hdecimals := h.wellFormed.isDigit_fraction decimals rfl
          have hpoint : Halts Char.isDigit ('.' :: decimals ++ rest) := halts_cons (by decide)
          refine ⟨c, digits ++ ('.' :: decimals ++ rest), by simp [Numeral.text], ?_⟩
          rw [nextPiece, Opening.ofChar_of_isDigit hdigit]
          show numeralPiece c (digits ++ ('.' :: decimals ++ rest)) = _
          rw [numeralPiece_append hdigits hpoint, fractionPiece_of_point hne hdecimals h.halts]

theorem nextPiece_of_fits_punctuator {p : Punctuator} (h : (Piece.punctuator p).Fits rest) :
    ∃ c more, p.spelling ++ rest = c :: more ∧ nextPiece c more = (.punctuator p, rest) := by
  rcases Opening.of_spelling p with ⟨c, hspelling, hopens⟩ | ⟨q, c, hq, hspelling, hopens⟩
  · refine ⟨c, rest, by rw [hspelling]; rfl, ?_⟩
    rw [nextPiece, hopens]
    exact punctuatorPiece_of_alone h.1 h.2
  · refine ⟨c, '=' :: rest, by rw [hspelling]; rfl, ?_⟩
    rw [nextPiece, hopens]
    exact punctuatorPiece_of_equal hq rest

/-- A piece that fits is taken off the front of the text. -/
theorem nextPiece_of_fits (h : piece.Fits rest) :
    ∃ c more, piece.text ++ rest = c :: more ∧ nextPiece c more = (piece, rest) := by
  cases piece with
  | punctuator p => exact nextPiece_of_fits_punctuator h
  | string body =>
      refine ⟨'"', body ++ '"' :: rest, by simp [Piece.text], ?_⟩
      show stringPiece (body ++ '"' :: rest) = _
      exact stringPiece_of_closed h
  | numeral n => exact nextPiece_of_fits_numeral h
  | blank c =>
      refine ⟨c, rest, rfl, ?_⟩
      rw [nextPiece, Opening.ofChar_of_isBlank h]
  | comment body =>
      refine ⟨'/', '/' :: (body ++ rest), rfl, ?_⟩
      show punctuatorPiece .slash ('/' :: (body ++ rest)) = _
      rw [punctuatorPiece_slash_slash, commentPiece_append h.1 h.2]
  | stray c =>
      refine ⟨c, rest, rfl, ?_⟩
      rw [nextPiece, show Opening.ofChar c = .nothing from h]
  | unclosed body =>
      obtain ⟨hbody, rfl⟩ := h
      refine ⟨'"', body, by simp [Piece.text], ?_⟩
      show stringPiece body = _
      exact stringPiece_of_unclosed hbody

theorem Piece.Fits.text_ne_nil (h : piece.Fits rest) : piece.text ≠ [] := by
  obtain ⟨c, more, htext, hnext⟩ := nextPiece_of_fits h
  have hlength := length_nextPiece c more
  intro hnil
  rw [hnil, List.nil_append] at htext
  rw [hnext, htext, List.length_cons] at hlength
  omega

/-- **What fits is taken**, and reading goes on behind it. -/
theorem pieces_append (h : piece.Fits rest) :
    pieces (piece.text ++ rest) = piece :: pieces rest := by
  obtain ⟨c, more, htext, hnext⟩ := nextPiece_of_fits h
  rw [htext, pieces_cons, hnext]

/-! ## Texts by their pieces -/

/-- **Induction over the pieces of a text**, the last piece first. -/
@[elab_as_elim]
theorem text_induction {motive : List Char → Prop} (nil : motive [])
    (piece : ∀ (piece : Piece) (rest : List Char), piece.Fits rest → motive rest →
      motive (piece.text ++ rest)) (text : List Char) : motive text := by
  -- by recursion on the length, since `nextPiece` takes a character at least
  match text with
  | [] => exact nil
  | c :: rest =>
      have hlt := length_nextPiece c rest
      have hrest := text_induction nil piece (nextPiece c rest).2
      have hwhole := piece _ _ (fits_nextPiece c rest) hrest
      rw [text_nextPiece] at hwhole
      exact hwhole
termination_by text.length

end LoxLexer
