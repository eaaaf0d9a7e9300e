import LoxLexer.Proofs.NumberValues
import LoxLexer.Proofs.ShortestSearch
import LoxLexer.Proofs.SignificantDigits

/-!
# The digits that a number is written with

The text of a finite number is a sign, if the number has one, and a numeral with digits on both
sides of its point (`text_writtenAs`). The digits of an integer are exact, and a zero stands behind
the point. Any other number is written as a decimal that rounds to it, with as few significant
digits as such a decimal can have, and none with as many is nearer (`IsShortest`).

What rounds to a number is said of decimals of either sign here (`RoundedFrom`). Since a number has
the sign of what rounds to it, distances are those without the signs (`abs_sub_toRat_of_sign`),
which the search is about.
-/

set_option autoImplicit false

namespace LoxLexer

namespace Binary64

/-! ## Definitions -/

/-- **A number is the correctly rounded value of a fraction** of either sign: the sign is kept, and
what is left without it is rounded. -/
structure RoundedFrom (q : ℚ) (x : Binary64) : Prop where
  negative_iff : x.negative = true ↔ q < 0
  correctlyRounded : CorrectlyRounded |q| { x with negative := false }

/-- A fraction with the sign of a number. -/
def signed (x : Binary64) (q : ℚ) : ℚ := if x.negative then -q else q

/-- **A numeral writes a number in the shortest way**, the sign left out. -/
structure IsShortest (x : Binary64) (n : Numeral) : Prop where
  /-- The last digit behind the point is needed. -/
  last_ne_zero : ∀ digits, n.fraction = some digits → digits.getLast? ≠ some '0'
  rounds : RoundedFrom (x.signed n.toRat) x
  /-- No decimal with fewer significant digits rounds to the number. -/
  fewest : ∀ q k, IsDecimal k q → RoundedFrom q x → n.significant.length ≤ k
  /-- And of those with as many none is nearer to it. -/
  nearest : ∀ q, IsDecimal n.significant.length q → RoundedFrom q x →
    |x.signed n.toRat - x.toRat| ≤ |q - x.toRat|

/-- **How a finite number is written**, the sign left out. -/
structure WrittenAs (x : Binary64) (n : Numeral) : Prop where
  /-- There are digits on both sides of the point, and nothing else. -/
  wellFormed : n.WellFormed
  point : n.fraction ≠ none
  noLeadingZero : n.NoLeadingZero
  /-- An integer is written exactly, with a zero behind the point. -/
  integral : ∀ k : Nat, |x.toRat| = k → n.whole = Nat.toDigits 10 k ∧ n.fraction = some ['0']
  /-- Other numbers are written in the shortest way. -/
  shortest : (∀ k : Nat, |x.toRat| ≠ k) → x.IsShortest n

/-! ## Signs -/

variable {x : Binary64} {q : ℚ} {n : Numeral}

/-- A number is its magnitude with its sign. -/
theorem toRat_eq_signed (x : Binary64) : x.toRat = x.signed (x.units / unitsPerOne) := by
  rw [toRat, signed]
  split
  · exact neg_div _ _
  · rfl

theorem abs_signed (hq : 0 ≤ q) : |x.signed q| = q := by
  rw [signed]
  split
  · rw [abs_neg, abs_of_nonneg hq]
  · exact abs_of_nonneg hq

theorem signed_abs (hsign : x.negative = true ↔ q < 0) : x.signed |q| = q := by
  rw [signed]
  split
  · rename_i hnegative
    rw [abs_of_neg (hsign.mp hnegative), neg_neg]
  · rename_i hpositive
    exact abs_of_nonneg (not_lt.mp fun hneg => hpositive (hsign.mpr hneg))

theorem abs_toRat (x : Binary64) : |x.toRat| = x.units / unitsPerOne := by
  rw [toRat_eq_signed]
  exact abs_signed (div_nonneg (Nat.cast_nonneg _) (Nat.cast_nonneg _))

/-- **How far a number is from a fraction of its sign**, counted in units. -/
theorem abs_sub_toRat_of_sign (hsign : x.negative = true ↔ q < 0) :
    |q - x.toRat| * unitsPerOne = |(|q| * unitsPerOne) - x.units| := by
  have hdistance : |q - x.toRat| = |(|q| - x.units / unitsPerOne)| := by
    rw [toRat_eq_signed]
    nth_rewrite 1 [← signed_abs hsign]
    rw [signed, signed]
    split
    · rw [← neg_sub', abs_neg]
    · rfl
  have hscaled : (|q| - x.units / unitsPerOne) * unitsPerOne = |q| * unitsPerOne - x.units := by
    rw [sub_mul, div_mul_cancel₀ _ unitsPerOne_pos.ne']
  rw [hdistance, ← hscaled, abs_mul, abs_of_pos unitsPerOne_pos]

/-- What rounds to a finite number goes to its magnitude. -/
theorem RoundedFrom.roundsTo (h : RoundedFrom q x) (hfinite : x.isFinite = true) :
    RoundsTo (|q| * unitsPerOne) x.magnitude :=
  h.correctlyRounded.roundsTo hfinite

/-- And what goes to its magnitude rounds to it, if the sign is the same. -/
theorem RoundsTo.roundedFrom (h : RoundsTo (|q| * unitsPerOne) x.magnitude)
    (hfinite : x.isFinite = true) (hsign : x.negative = true ↔ q < 0) : RoundedFrom q x where
  negative_iff := hsign
  correctlyRounded := by
    have hless : x.magnitude < infiniteMagnitude := of_decide_eq_true hfinite
    exact h.correctlyRounded (abs_nonneg q) rfl (Nat.min_eq_left (Nat.le_of_lt hless)).symm

/-! ## Integers -/

/-- The numbers without a fractional part are the integers. -/
theorem isIntegral_iff (x : Binary64) : x.isIntegral = true ↔ ∃ k : Nat, |x.toRat| = k := by
  rw [isIntegral, decide_eq_true_eq, abs_toRat]
  constructor
  · intro hzero
    obtain ⟨k, hk⟩ := Nat.dvd_of_mod_eq_zero hzero
    refine ⟨k, ?_⟩
    rw [hk, Nat.cast_mul, mul_div_cancel_left₀ _ unitsPerOne_pos.ne']
  · rintro ⟨k, hk⟩
    rw [div_eq_iff unitsPerOne_pos.ne'] at hk
    have hunits : x.units = k * unitsPerOne := by exact_mod_cast hk
    rw [hunits, Nat.mul_mod_left]

/-- **An integer is written exactly.** -/
theorem numeral_of_abs_toRat {k : Nat} (h : |x.toRat| = k) : x.numeral = .integral k := by
  rw [numeral, if_pos ((isIntegral_iff x).mpr ⟨k, h⟩)]
  rw [abs_toRat, div_eq_iff unitsPerOne_pos.ne'] at h
  have hunits : x.units = k * unitsPerOne := by exact_mod_cast h
  have hpos : 0 < unitsPerOne := Nat.cast_pos.mp unitsPerOne_pos
  rw [hunits, Nat.mul_div_cancel k hpos]

/-! ## Other numbers -/

/-- A number with a fractional part is not zero. -/
theorem magnitude_pos (hfractional : x.isIntegral = false) : 0 < x.magnitude := by
  apply Nat.pos_of_ne_zero
  intro hzero
  have hunits : x.units = 0 := by
    rw [units_eq, hzero]
    rfl
  rw [isIntegral, hunits, Nat.zero_mod] at hfractional
  cases hfractional

/-- With the sign of a number below zero, a fraction is below zero as well. -/
theorem negative_iff_signed (hpos : 0 < q) : x.negative = true ↔ x.signed q < 0 := by
  rw [signed]
  split
  · rename_i hnegative
    exact iff_of_true hnegative (neg_lt_zero.mpr hpos)
  · rename_i hpositive
    exact iff_of_false hpositive (not_lt.mpr hpos.le)

/-- **No decimal that rounds to a number is shorter** than its shortest one, nor nearer if it is as
short. -/
theorem RoundedFrom.shortest_le {k : Nat} (h : RoundedFrom q x) (hfinite : x.isFinite = true)
    (hpos : 0 < x.magnitude) (tie : Tie) (hq : IsDecimal k q) :
    (x.shortest tie).coefficient < 10 ^ k ∧
      (10 ^ (k - 1) ≤ (x.shortest tie).coefficient →
        |(x.shortest tie).toRat * unitsPerOne - x.units| ≤ |(|q| * unitsPerOne) - x.units|) := by
  obtain ⟨d, hd, hvalue⟩ := hq.exists_decimal
  have hrounds := h.roundsTo hfinite
  rw [← hvalue] at hrounds ⊢
  exact shortest_le_of_roundsTo tie hpos hrounds hd

/-- **What the search finds is the shortest way to write a number** that is no integer. -/
theorem isShortest_numeral (hfinite : x.isFinite = true) (hfractional : x.isIntegral = false) :
    x.IsShortest x.numeral := by
  have hpos := magnitude_pos hfractional
  have hnumeral : x.numeral = (x.shortest .up).numeral := by
    rw [numeral, if_neg (Bool.eq_false_iff.mp hfractional)]
  have hvalue : x.numeral.toRat = (x.shortest .up).toRat := by
    rw [hnumeral, Decimal.toRat_numeral]
  have hpositive : 0 < x.numeral.toRat := by
    rw [hvalue]
    exact toRat_shortest_pos .up hpos
  have hsign : x.negative = true ↔ x.signed x.numeral.toRat < 0 := negative_iff_signed hpositive
  have hwellFormed := x.wellFormed_numeral
  constructor
  case last_ne_zero =>
    intro digits hdigits hzero
    have hneg := shortest_exponent_neg .up hfractional
    rw [hnumeral, Decimal.numeral, if_pos hneg] at hdigits
    rw [Numeral.getLast?_fixed (by omega) hdigits] at hzero
    have hmod := Nat.digitChar_eq_zero.mp (Option.some.inj hzero)
    exact shortest_mod_ten .up hpos hmod
  case rounds =>
    have hrounds := roundsTo_shortest x .up
    rw [← hvalue, ← abs_signed hpositive.le] at hrounds
    exact hrounds.roundedFrom hfinite hsign
  case fewest =>
    intro q k hq hrounds
    obtain ⟨hfew, -⟩ := hrounds.shortest_le hfinite hpos .up hq
    rw [← Numeral.isDecimal_iff hwellFormed, hvalue]
    exact Decimal.isDecimal hfew
  case nearest =>
    intro q hq hrounds
    obtain ⟨hfew, hnear⟩ := hrounds.shortest_le hfinite hpos .up hq
    -- fewer digits than the numeral has would not do for it
    have hmany : 10 ^ (x.numeral.significant.length - 1) ≤ (x.shortest .up).coefficient := by
      by_contra hless
      have hdecimal := Decimal.isDecimal (not_le.mp hless)
      rw [← hvalue, Numeral.isDecimal_iff hwellFormed] at hdecimal
      have hempty : x.numeral.significant.length = 0 := by omega
      rw [hempty] at hfew
      have hzero : (x.shortest .up).coefficient = 0 := Nat.lt_one_iff.mp hfew
      exact shortest_mod_ten .up hpos (by rw [hzero])
    apply le_of_mul_le_mul_right _ unitsPerOne_pos
    rw [abs_sub_toRat_of_sign hsign, abs_sub_toRat_of_sign hrounds.negative_iff,
      abs_signed hpositive.le, hvalue]
    exact hnear hmany

/-! ## The text -/

/-- A number is written with so many places behind the point. -/
theorem exists_fixed (x : Binary64) :
    ∃ coefficient places, x.numeral = .fixed coefficient places := by
  rw [numeral]
  split
  · exact ⟨_, _, rfl⟩
  · rw [Decimal.numeral]
    split
    · exact ⟨_, _, rfl⟩
    · exact ⟨_, _, rfl⟩

theorem writtenAs_numeral (hfinite : x.isFinite = true) : x.WrittenAs x.numeral := by
  constructor
  case wellFormed => exact x.wellFormed_numeral
  case point =>
    obtain ⟨coefficient, places, hfixed⟩ := x.exists_fixed
    rw [hfixed]
    exact nofun
  case noLeadingZero =>
    obtain ⟨coefficient, places, hfixed⟩ := x.exists_fixed
    rw [hfixed]
    exact Numeral.noLeadingZero_fixed coefficient places
  case integral =>
    intro k hk
    have hwhole : k * 10 / 10 ^ 1 = k := Nat.mul_div_cancel k (by decide)
    have hfraction : k * 10 % 10 ^ 1 = 0 := Nat.mul_mod_left k 10
    rw [numeral_of_abs_toRat hk, Numeral.integral, Numeral.fixed, hwhole, hfraction]
    exact ⟨rfl, rfl⟩
  case shortest =>
    intro hfractional
    apply isShortest_numeral hfinite
    apply Bool.eq_false_iff.mpr
    intro hintegral
    obtain ⟨k, hk⟩ := (isIntegral_iff x).mp hintegral
    exact hfractional k hk

/-- **Number text is exact for integers and shortest otherwise**: for every finite number it is a
minus sign, if the number has a sign, and digits with a point between them. -/
theorem text_writtenAs (x : Binary64) (hfinite : x.isFinite = true) :
    ∃ n : Numeral, x.text = (if x.negative then "-" else "") ++ String.ofList n.text ∧
      x.WrittenAs n := by
  refine ⟨x.numeral, ?_, writtenAs_numeral hfinite⟩
  rw [text_of_isFinite hfinite, text_numeral, String.ofList_toList]

/-- A power of two, less than nothing: numbers nearer to zero are twice as close to it as the
others. So the decimal of sixteen digits that is nearest to it, the one that ends in `801`, does not
round to it, and the next one is written. -/
theorem writtenAs_two_pow :
    (ofBits 0xBD30000000000000).isFinite = true ∧
      (ofBits 0xBD30000000000000).text = "-0.00000000000005684341886080802" ∧
      (ofBits 0xBD30000000000000).WrittenAs
        ⟨['0'], some "00000000000005684341886080802".toList⟩ := by
  have hfinite : (ofBits 0xBD30000000000000).isFinite = true := by decide
  have hnegative : (ofBits 0xBD30000000000000).negative = true := by decide
  have htext : (ofBits 0xBD30000000000000).text = "-0.00000000000005684341886080802" := by
    decide +kernel
  obtain ⟨n, hn, hwritten⟩ := text_writtenAs _ hfinite
  rw [htext, if_pos hnegative] at hn
  have hdigits : String.ofList n.text = "0.00000000000005684341886080802" :=
    (String.append_right_inj "-").mp hn.symm
  -- the text tells which numeral it is
  have hread := Numeral.ofText?_text hwritten.wellFormed
  rw [← String.toList_ofList (l := n.text), hdigits] at hread
  have hnumeral : some ⟨['0'], some "00000000000005684341886080802".toList⟩ = some n := hread
  exact ⟨hfinite, htext, Option.some.inj hnumeral ▸ hwritten⟩

end Binary64

end LoxLexer
