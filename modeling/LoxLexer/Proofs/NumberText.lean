import LoxLexer.Proofs.DecimalText
import LoxLexer.Proofs.Places

/-!
# Number text is lexed as the number

The text of a finite number is a numeral behind a sign: all digits of an integer and a zero behind
the point, or the shortest digits. The value of that numeral is the number itself, without its sign
(`value_numeral`), since its digits round to the number and to no other. So the text of a number
holds one number token with that number, and a minus sign in front if there is a sign (`lex_text`).
-/

set_option autoImplicit false

namespace LoxLexer

/-! ## The numeral of a number -/

/-- **A numeral has the value that its fraction goes to.** -/
theorem Numeral.value_eq_iff {n : Numeral} {x : Binary64} (hsign : x.negative = false)
    (hfinite : x.isFinite = true) :
    n.value = x ↔ Binary64.RoundsTo (n.toRat * Binary64.unitsPerOne) x.magnitude :=
  Binary64.nearest_eq_iff (Nat.pow_pos (by decide)) hsign hfinite

namespace Binary64

/-- The numeral that a finite number is written as, the sign left out. -/
def numeral (x : Binary64) : Numeral :=
  if x.isIntegral then .integral (x.units / unitsPerOne) else (x.shortest .up).numeral

variable {x : Binary64}

theorem text_numeral (x : Binary64) : x.numeral.text = x.absText.toList := by
  rw [numeral, absText]
  split
  · exact Numeral.text_integral _
  · exact Decimal.text_numeral _

theorem wellFormed_numeral (x : Binary64) : x.numeral.WellFormed := by
  rw [numeral]
  split
  · exact Numeral.wellFormed_fixed (by decide)
  · exact Decimal.wellFormed_numeral _

/-- The digits round to the number: those of an integer are exact, and the shortest ones do. -/
theorem roundsTo_numeral (x : Binary64) :
    RoundsTo (x.numeral.toRat * unitsPerOne) x.magnitude := by
  rw [numeral]
  split
  · rename_i hintegral
    have hunits : x.units / unitsPerOne * unitsPerOne = x.units :=
      Nat.div_mul_cancel (Nat.dvd_of_mod_eq_zero (of_decide_eq_true hintegral))
    rw [Numeral.toRat_integral, ← Nat.cast_mul, hunits]
    exact roundsTo_units x
  · rw [Decimal.toRat_numeral]
    exact roundsTo_shortest x .up

/-- **The numeral of a finite number has the number as its value**, the sign left out. -/
theorem value_numeral (hfinite : x.isFinite = true) :
    x.numeral.value = { x with negative := false } := by
  have hsame : { x with negative := false }.isFinite = true := hfinite
  rw [Numeral.value_eq_iff rfl hsame]
  exact roundsTo_numeral x

/-- The sign stands in front of the text of a finite number. -/
theorem text_of_isFinite (hfinite : x.isFinite = true) :
    x.text = (if x.negative then "-" else "") ++ x.absText := by
  have hnumber : ¬ x.isNaN = true := by
    have hless : x.magnitude < infiniteMagnitude := of_decide_eq_true hfinite
    rw [isNaN, decide_eq_true_eq]
    omega
  rw [text, if_neg hnumber, if_pos hfinite]

end Binary64

/-! ## Reading the numeral -/

/-- Nothing behind a numeral goes on with it. -/
theorem Numeral.WellFormed.fits_nil {n : Numeral} (h : n.WellFormed) : n.Fits [] where
  wellFormed := h
  halts := halts_nil
  no_point := nofun

theorem pieces_numeral {n : Numeral} (h : n.WellFormed) : pieces n.text = [.numeral n] := by
  have hfits : (Piece.numeral n).Fits [] := h.fits_nil
  have hpieces := pieces_append hfits
  rwa [List.append_nil, pieces_nil] at hpieces

/-- A minus sign is no part of the number behind it. -/
theorem pieces_minus_numeral {n : Numeral} (h : n.WellFormed) :
    pieces ('-' :: n.text) = [.punctuator .minus, .numeral n] := by
  have hfits : (Piece.punctuator .minus).Fits n.text := by
    constructor
    · exact nofun
    · exact nofun
  have hpieces := pieces_append hfits
  rwa [pieces_numeral h] at hpieces

/-- The token of a numeral at some place. -/
theorem token?_numeral {n : Numeral} (h : n.WellFormed) (place : Place) :
    Located.token? ⟨.numeral n, place⟩ =
      some ⟨.number, String.ofList n.text, .number n.value, clip place.line,
        Span.covering place.offset (byteSize n.text)⟩ := by
  have hline : (place.after n.text).line = place.line := by
    rw [Place.after, List.count_eq_zero.mpr h.lineFeed_not_mem, Nat.add_zero]
  have htoken : Located.token? ⟨.numeral n, place⟩ =
      some ⟨.number, String.ofList n.text, .number n.value, clip (place.after n.text).line,
        Span.covering place.offset (byteSize n.text)⟩ := rfl
  rw [htoken, hline]

/-- **The text of a finite number is lexed as the number**: without a sign it is one number token,
with a sign there is a minus sign in front and the number is the one without the sign. Nothing is
reported, and no bit of the number is lost. -/
theorem lex_text (x : Binary64) (hfinite : x.isFinite = true) :
    (x.negative = false →
      lex x.text =
        { tokens :=
            [⟨.number, x.text, .number x, 1, Span.covering 0 x.text.utf8ByteSize⟩,
              eofToken (Place.origin.after x.text.toList)]
          diagnostics := [] }) ∧
    (x.negative = true →
      ∃ digits, x.text = "-" ++ digits ∧
        lex x.text =
          { tokens :=
              [⟨.punctuator .minus, "-", .absent, 1, ⟨0, 1⟩⟩,
                ⟨.number, digits, .number { x with negative := false }, 1,
                  Span.covering 1 digits.utf8ByteSize⟩,
                eofToken (Place.origin.after x.text.toList)]
            diagnostics := [] }) := by
  have hnumeral := Binary64.wellFormed_numeral x
  have hdigits : String.ofList x.numeral.text = x.absText := by
    rw [Binary64.text_numeral, String.ofList_toList]
  have hsize : byteSize x.numeral.text = x.absText.utf8ByteSize := by
    rw [← hdigits, utf8ByteSize_ofList]
  have hvalue := Binary64.value_numeral hfinite
  have htoken (place : Place) := token?_numeral hnumeral place
  rw [hdigits, hvalue, hsize] at htoken
  constructor
  · intro hsign
    have hx : { x with negative := false } = x := Binary64.ext_of_magnitude hsign.symm rfl
    have htext : x.text = x.absText := by
      rw [Binary64.text_of_isFinite hfinite, hsign]
      rfl
    have hpieces : pieces x.text.toList = [.numeral x.numeral] := by
      rw [htext, ← Binary64.text_numeral, pieces_numeral hnumeral]
    rw [lex_eq, Lexed.ofText, located, hpieces, locate_cons, locate_nil,
      List.filterMap_cons_some (htoken _), htext, hx]
    rfl
  · intro hsign
    have htext : x.text = "-" ++ x.absText := by
      rw [Binary64.text_of_isFinite hfinite, hsign]
      rfl
    have hpieces : pieces x.text.toList = [.punctuator .minus, .numeral x.numeral] := by
      rw [htext, String.toList_append, ← Binary64.text_numeral]
      exact pieces_minus_numeral hnumeral
    have hminus : Located.token? ⟨.punctuator .minus, .origin⟩ =
        some ⟨.punctuator .minus, "-", .absent, 1, ⟨0, 1⟩⟩ := rfl
    refine ⟨x.absText, htext, ?_⟩
    rw [lex_eq, Lexed.ofText, located, hpieces, locate_cons, locate_cons, locate_nil,
      List.filterMap_cons_some hminus, List.filterMap_cons_some (htoken _)]
    rfl

/-- One tenth, less than nothing: the digits do not give its exact value, and yet all its bits are
read back. -/
theorem lex_minus_one_tenth :
    (Binary64.ofBits 0xBFB999999999999A).isFinite = true ∧
      (Binary64.ofBits 0xBFB999999999999A).negative = true ∧
      lex "-0.1" =
        { tokens :=
            [⟨.punctuator .minus, "-", .absent, 1, ⟨0, 1⟩⟩,
              ⟨.number, "0.1", .number (Binary64.ofBits 0x3FB999999999999A), 1, ⟨1, 3⟩⟩,
              ⟨.eof, "", .absent, 1, ⟨4, 0⟩⟩]
          diagnostics := [] } := by
  have hfinite : (Binary64.ofBits 0xBFB999999999999A).isFinite = true := by decide
  have hnegative : (Binary64.ofBits 0xBFB999999999999A).negative = true := by decide
  have htext : (Binary64.ofBits 0xBFB999999999999A).text = "-0.1" := by decide +kernel
  obtain ⟨digits, hdigits, hlex⟩ := (lex_text _ hfinite).2 hnegative
  rw [htext] at hdigits hlex
  have hrest : digits = "0.1" := (String.append_right_inj "-").mp hdigits.symm
  rw [hrest] at hlex
  exact ⟨hfinite, hnegative, hlex⟩

end LoxLexer
