import LoxLexer.Number.Layout
import LoxLexer.Proofs.ShortestDecimal
import LoxLexer.Token.Numeral

/-!
# Decimals and the numerals that write them

A decimal in positional notation is a numeral, and the numeral stands for the same fraction
(`toRat_positional`). It does not begin with a zero that could be left out.
-/

set_option autoImplicit false

namespace LoxLexer

/-! ## Definitions -/

/-- The fraction that a numeral stands for. -/
def Numeral.toRat (n : Numeral) : ℚ := n.numerator / n.denominator

/-- The first digit is a zero only if it is the whole part. -/
def Numeral.NoLeadingZero (n : Numeral) : Prop := n.whole.head? = some '0' → n.whole = ['0']

/-- A natural number as a numeral without a point. -/
def Numeral.ofNat (n : Nat) : Numeral := ⟨Nat.toDigits 10 n, none⟩

/-- The numeral of `coefficient / 10 ^ places`, with so many digits behind the point. -/
def Numeral.fixed (coefficient places : Nat) : Numeral :=
  ⟨Nat.toDigits 10 (coefficient / 10 ^ places),
    some ((Nat.toDigits 10 (coefficient % 10 ^ places)).leftpad places '0')⟩

/-- A natural number as a numeral with a zero behind the point. -/
def Numeral.integral (n : Nat) : Numeral := .fixed (n * 10) 1

/-- The numeral of a decimal in positional notation. -/
def Decimal.numeral (d : Decimal) : Numeral :=
  if d.exponent < 0 then .fixed d.coefficient (-d.exponent).toNat
  else .integral (d.coefficient * 10 ^ d.exponent.toNat)

/-! ## Digits -/

variable {n coefficient places : Nat} {c : Char}

/-- Only zero is written with a zero in front. -/
theorem head?_toDigits_ne_zero (hn : 0 < n) : (Nat.toDigits 10 n).head? ≠ some '0' := by
  induction n using Nat.strongRecOn with
  | _ n ih =>
      rw [Nat.toDigits_eq_if (by decide)]
      split
      · intro hzero
        have hdigit : Nat.digitChar n = '0' := Option.some.inj hzero
        exact absurd (Nat.digitChar_eq_zero.mp hdigit) (Nat.ne_of_gt hn)
      · rename_i hlarge
        have hless : 0 < n / 10 := Nat.div_pos (Nat.not_lt.mp hlarge) (by decide)
        rw [List.head?_append_of_ne_nil _ Nat.toDigits_ne_nil]
        exact ih (n / 10) (Nat.div_lt_self hn (by decide)) hless

theorem toDigits_of_head?_eq_zero (h : (Nat.toDigits 10 n).head? = some '0') :
    Nat.toDigits 10 n = ['0'] := by
  rcases Nat.eq_zero_or_pos n with rfl | hpos
  · exact Nat.toDigits_zero 10
  · exact absurd h (head?_toDigits_ne_zero hpos)

/-! ## Natural numbers -/

theorem Numeral.text_ofNat (n : Nat) : (Numeral.ofNat n).text = n.repr.toList := by
  rw [Nat.repr_eq_ofList_toDigits, String.toList_ofList]
  rfl

theorem Numeral.wellFormed_ofNat (n : Nat) : (Numeral.ofNat n).WellFormed :=
  wellFormed_integer Nat.toDigits_ne_nil fun _ => isDigit_of_mem_toDigits

theorem Numeral.noLeadingZero_ofNat (n : Nat) : (Numeral.ofNat n).NoLeadingZero :=
  toDigits_of_head?_eq_zero

theorem Numeral.toRat_ofNat (n : Nat) : (Numeral.ofNat n).toRat = n := by
  have hnumerator : (Numeral.ofNat n).numerator = n := by
    rw [numerator, digits, ofNat, Option.getD_none, List.append_nil]
    exact Nat.ofDigitChars_ten_toDigits
  have hdenominator : (Numeral.ofNat n).denominator = 1 := rfl
  rw [toRat, hnumerator, hdenominator, Nat.cast_one, div_one]

/-! ## Fixed places -/

/-- The digits behind the point are as many as asked for. -/
theorem length_leftpad_toDigits (coefficient : Nat) (hplaces : 0 < places) :
    ((Nat.toDigits 10 (coefficient % 10 ^ places)).leftpad places '0').length = places := by
  have hlength : (Nat.toDigits 10 (coefficient % 10 ^ places)).length ≤ places :=
    (Nat.length_toDigits_le_iff (by decide) hplaces).mpr
      (Nat.mod_lt _ (Nat.pow_pos (by decide)))
  rw [List.length_leftpad]
  exact Nat.max_eq_left hlength

theorem Numeral.text_fixed (coefficient places : Nat) :
    (Numeral.fixed coefficient places).text = (Decimal.fixed coefficient places).toList := by
  rw [Decimal.fixed, Nat.repr_eq_ofList_toDigits]
  simp [Numeral.text, Numeral.fixed]

theorem Numeral.wellFormed_fixed (hplaces : 0 < places) :
    (Numeral.fixed coefficient places).WellFormed := by
  refine wellFormed_decimal Nat.toDigits_ne_nil (fun _ => isDigit_of_mem_toDigits) ?_ ?_
  · refine List.ne_nil_of_length_pos ?_
    rw [length_leftpad_toDigits coefficient hplaces]
    exact hplaces
  · intro c hc
    rcases List.mem_append.mp hc with hpad | hdigit
    · rw [List.eq_of_mem_replicate hpad]
      decide
    · exact isDigit_of_mem_toDigits hdigit

theorem Numeral.noLeadingZero_fixed (coefficient places : Nat) :
    (Numeral.fixed coefficient places).NoLeadingZero := toDigits_of_head?_eq_zero

/-- **A numeral of so many places** stands for the fraction that it was made for. -/
theorem Numeral.toRat_fixed (hplaces : 0 < places) :
    (Numeral.fixed coefficient places).toRat = coefficient / 10 ^ places := by
  have hlength := length_leftpad_toDigits coefficient hplaces
  have hdenominator : (Numeral.fixed coefficient places).denominator = 10 ^ places :=
    congrArg (Nat.pow 10) hlength
  have hfraction : Nat.ofDigitChars 10
      ((Nat.toDigits 10 (coefficient % 10 ^ places)).leftpad places '0') 0 =
        coefficient % 10 ^ places := by
    rw [List.leftpad, Nat.ofDigitChars_append, Nat.ofDigitChars_replicate_zero, Nat.mul_zero]
    exact Nat.ofDigitChars_ten_toDigits
  have hnumerator : (Numeral.fixed coefficient places).numerator = coefficient := by
    rw [numerator, digits, fixed, Option.getD_some, Nat.ofDigitChars_append,
      Nat.ofDigitChars_ten_toDigits, Nat.ofDigitChars_eq_ofDigitChars_zero, hlength, hfraction]
    exact Nat.div_add_mod coefficient (10 ^ places)
  rw [toRat, hnumerator, hdenominator]
  push_cast
  rfl

theorem Numeral.text_integral (n : Nat) : (Numeral.integral n).text = (n.repr ++ ".0").toList := by
  have hwhole : n * 10 / 10 ^ 1 = n := Nat.mul_div_cancel n (by decide)
  have hfraction : n * 10 % 10 ^ 1 = 0 := Nat.mul_mod_left n 10
  rw [integral, text_fixed, Decimal.fixed, Nat.pow_eq, hwhole, hfraction]
  simp [Nat.toDigits_zero]

theorem Numeral.toRat_integral (n : Nat) : (Numeral.integral n).toRat = n := by
  rw [integral, toRat_fixed (by decide), Nat.cast_mul, pow_one]
  exact mul_div_cancel_right₀ _ (by decide)

/-! ## Positional notation -/

theorem Decimal.text_numeral (d : Decimal) : d.numeral.text = d.positional.toList := by
  rw [numeral, positional]
  split
  · exact Numeral.text_fixed _ _
  · exact Numeral.text_integral _

theorem Decimal.wellFormed_numeral (d : Decimal) : d.numeral.WellFormed := by
  rw [numeral]
  split
  · exact Numeral.wellFormed_fixed (by omega)
  · exact Numeral.wellFormed_fixed (by decide)

theorem Decimal.noLeadingZero_numeral (d : Decimal) : d.numeral.NoLeadingZero := by
  rw [numeral]
  split
  · exact Numeral.noLeadingZero_fixed _ _
  · exact Numeral.noLeadingZero_fixed _ _

/-- **Positional notation** writes the decimal. -/
theorem Decimal.toRat_numeral (d : Decimal) : d.numeral.toRat = d.toRat := by
  rw [numeral, toRat]
  split
  · rename_i hneg
    obtain ⟨k, hk⟩ : ∃ k : Nat, d.exponent = -k := ⟨d.exponent.natAbs, by omega⟩
    have hplaces : (-d.exponent).toNat = k := by omega
    rw [Numeral.toRat_fixed (by omega), hplaces, hk, zpow_neg, zpow_natCast, div_eq_mul_inv]
  · rename_i hneg
    obtain ⟨k, hk⟩ : ∃ k : Nat, d.exponent = k := ⟨d.exponent.natAbs, by omega⟩
    have hplaces : d.exponent.toNat = k := by omega
    rw [Numeral.toRat_integral, hplaces, hk, zpow_natCast, Nat.cast_mul, Nat.cast_pow,
      Nat.cast_ofNat]

end LoxLexer
