import Mathlib.Data.List.DropRight
import LoxLexer.Proofs.DecimalText

/-!
# Significant digits

The significant digits of a numeral are those between the zeros at its two ends. They are as few as
there can be: the fraction of a numeral is a decimal of so many digits, and of no fewer
(`Numeral.isDecimal_iff`). For without a zero in front, so many digits make a number that is not
less than the power of ten of its first digit, and without a zero at the end this number cannot be
had with a greater exponent (`le_natAbs_of_mul_zpow_eq`).
-/

set_option autoImplicit false

namespace LoxLexer

/-! ## Definitions -/

/-- A fraction is a decimal of so many significant digits, or of fewer. -/
def IsDecimal (digits : Nat) (q : ℚ) : Prop :=
  ∃ coefficient exponent : ℤ, coefficient.natAbs < 10 ^ digits ∧ q = coefficient * 10 ^ exponent

/-- The digits of a numeral without the zeros at both ends. -/
def Numeral.significant (n : Numeral) : List Char :=
  (n.digits.dropWhile (· == '0')).rdropWhile (· == '0')

/-! ## Numbers of digits -/

variable {c : Char} {digits : List Char}

theorem toNat_sub_lt_ten (h : c.isDigit) : c.toNat - '0'.toNat < 10 := by
  have hnine : '9'.toNat = '0'.toNat + 9 := rfl
  have hbounds := Char.isDigit_iff_toNat.mp h
  omega

theorem toNat_sub_pos (h : c.isDigit) (hzero : c ≠ '0') : 0 < c.toNat - '0'.toNat := by
  have hne : c.toNat ≠ '0'.toNat := fun hsame => hzero (Char.toNat_inj.mp hsame)
  have hbounds := Char.isDigit_iff_toNat.mp h
  omega

theorem ofDigitChars_cons_zero (c : Char) (digits : List Char) :
    Nat.ofDigitChars 10 (c :: digits) 0 =
      10 ^ digits.length * (c.toNat - '0'.toNat) + Nat.ofDigitChars 10 digits 0 := by
  rw [Nat.ofDigitChars_cons, Nat.mul_zero, Nat.zero_add, Nat.ofDigitChars_eq_ofDigitChars_zero]

theorem ofDigitChars_lt (hdigits : ∀ c ∈ digits, c.isDigit) :
    Nat.ofDigitChars 10 digits 0 < 10 ^ digits.length := by
  induction digits with
  | nil => exact Nat.one_pos
  | cons c digits ih =>
      obtain ⟨hfirst, hrest⟩ := List.forall_mem_cons.mp hdigits
      calc
        Nat.ofDigitChars 10 (c :: digits) 0
          = 10 ^ digits.length * (c.toNat - '0'.toNat) + Nat.ofDigitChars 10 digits 0 :=
            ofDigitChars_cons_zero c digits
        _ < 10 ^ digits.length * (c.toNat - '0'.toNat) + 10 ^ digits.length :=
            Nat.add_lt_add_left (ih hrest) _
        _ = 10 ^ digits.length * (c.toNat - '0'.toNat + 1) := (Nat.mul_succ _ _).symm
        _ ≤ 10 ^ digits.length * 10 := Nat.mul_le_mul_left _ (toNat_sub_lt_ten hfirst)
        _ = 10 ^ (c :: digits).length := Eq.symm (Nat.pow_succ 10 _)

/-- **Without a zero in front** the first digit counts. -/
theorem le_ofDigitChars (hdigit : c.isDigit) (hzero : c ≠ '0') :
    10 ^ digits.length ≤ Nat.ofDigitChars 10 (c :: digits) 0 := by
  rw [ofDigitChars_cons_zero]
  calc
    10 ^ digits.length
      ≤ 10 ^ digits.length * (c.toNat - '0'.toNat) :=
        Nat.le_mul_of_pos_right _ (toNat_sub_pos hdigit hzero)
    _ ≤ _ := Nat.le_add_right _ _

/-- **Without a zero at the end** a number is no multiple of ten. -/
theorem ofDigitChars_concat_mod_ten (hdigit : c.isDigit) (hzero : c ≠ '0') :
    Nat.ofDigitChars 10 (digits ++ [c]) 0 % 10 ≠ 0 := by
  have hpos := toNat_sub_pos hdigit hzero
  have hlt := toNat_sub_lt_ten hdigit
  rw [Nat.ofDigitChars_append, Nat.ofDigitChars_cons, Nat.ofDigitChars_nil]
  omega

/-- The last digit of a number is the rest modulo ten. -/
theorem getLast?_toDigits (n : Nat) :
    (Nat.toDigits 10 n).getLast? = some (Nat.digitChar (n % 10)) := by
  rw [Nat.toDigits_eq_if (by decide)]
  split
  · rename_i hsmall
    rw [Nat.mod_eq_of_lt hsmall]
    rfl
  · exact List.getLast?_concat

/-- **Behind the point the last digit is that of the coefficient.** -/
theorem Numeral.getLast?_fixed {coefficient places : Nat} (hplaces : 0 < places)
    (h : (Numeral.fixed coefficient places).fraction = some digits) :
    digits.getLast? = some (Nat.digitChar (coefficient % 10)) := by
  have hten : 10 ∣ 10 ^ places := dvd_pow_self 10 hplaces.ne'
  rw [← Option.some.inj h, List.leftpad, List.getLast?_append_of_ne_nil _ Nat.toDigits_ne_nil,
    getLast?_toDigits, Nat.mod_mod_of_dvd _ hten]

/-! ## Decimals of so many digits -/

/-- If a fraction is written with a number that is no multiple of ten, then it is not written with a
lesser one. -/
theorem le_natAbs_of_mul_zpow_eq {s : Nat} {coefficient e f : ℤ} (hs : s % 10 ≠ 0)
    (h : (s : ℚ) * 10 ^ f = coefficient * 10 ^ e) : s ≤ coefficient.natAbs := by
  have hten (e : ℤ) : (10 : ℚ) ^ e ≠ 0 := zpow_ne_zero _ (by decide)
  rcases Int.lt_or_le f e with hgreater | hless
  · obtain ⟨i, rfl⟩ := Int.le.dest hgreater
    have hmultiple : (s : ℚ) = coefficient * 10 ^ i * 10 := by
      apply mul_right_cancel₀ (hten f)
      rw [h, zpow_add₀ (by decide), zpow_add_one₀ (by decide), zpow_natCast]
      ring
    have hint : (s : ℤ) = coefficient * 10 ^ i * 10 := by exact_mod_cast hmultiple
    omega
  · obtain ⟨i, rfl⟩ := Int.le.dest hless
    have hmultiple : (s : ℚ) * 10 ^ i = coefficient := by
      apply mul_right_cancel₀ (hten e)
      rw [← h, zpow_add₀ (by decide), zpow_natCast]
      ring
    have hint : ((s * 10 ^ i : Nat) : ℤ) = coefficient := by exact_mod_cast hmultiple
    rw [← hint, Int.natAbs_natCast]
    exact Nat.le_mul_of_pos_right s (Nat.pow_pos (by decide))

/-- A decimal has no more significant digits than its coefficient has digits. -/
theorem Decimal.isDecimal {d : Decimal} {k : Nat} (h : d.coefficient < 10 ^ k) :
    IsDecimal k d.toRat := by
  refine ⟨(d.coefficient : Nat), d.exponent, ?_, rfl⟩
  rw [Int.natAbs_natCast]
  exact h

/-- Without its sign, a decimal of so many digits is one with a coefficient of as many. -/
theorem IsDecimal.exists_decimal {q : ℚ} {k : Nat} (h : IsDecimal k q) :
    ∃ d : Decimal, d.coefficient < 10 ^ k ∧ d.toRat = |q| := by
  obtain ⟨coefficient, exponent, hfew, rfl⟩ := h
  refine ⟨⟨coefficient.natAbs, exponent⟩, hfew, ?_⟩
  rw [Decimal.toRat, abs_mul, abs_zpow, Nat.cast_natAbs, Int.cast_abs]
  rfl

/-! ## The zeros at both ends -/

namespace Numeral

variable {n : Numeral} {k : Nat}

/-- The significant digits stand between zeros. -/
theorem exists_zeros (n : Numeral) : ∃ i j,
    n.digits = List.replicate i '0' ++ (n.significant ++ List.replicate j '0') := by
  have hzeros {run : List Char} (h : ∀ c ∈ run, (c == '0') = true) :
      ∃ i, run = List.replicate i '0' :=
    ⟨run.length, List.eq_replicate_of_mem fun c hc => beq_iff_eq.mp (h c hc)⟩
  obtain ⟨i, hfront⟩ := hzeros (List.all_eq_true.mp (List.all_takeWhile (l := n.digits)))
  obtain ⟨j, hend⟩ := hzeros (fun c =>
    List.mem_rtakeWhile_imp (p := (· == '0')) (l := n.digits.dropWhile (· == '0')))
  refine ⟨i, j, ?_⟩
  rw [← hfront, ← hend, significant, List.rdropWhile_append_rtakeWhile,
    List.takeWhile_append_dropWhile]

/-- Zeros in front do not count, and those at the end are a power of ten. -/
theorem exists_numerator (n : Numeral) :
    ∃ j, n.numerator = Nat.ofDigitChars 10 n.significant 0 * 10 ^ j := by
  obtain ⟨i, j, hdigits⟩ := n.exists_zeros
  refine ⟨j, ?_⟩
  rw [numerator, hdigits, Nat.ofDigitChars_append, Nat.ofDigitChars_replicate_zero, Nat.mul_zero,
    Nat.ofDigitChars_append, Nat.ofDigitChars_replicate_zero, Nat.mul_comm]

theorem isDigit_of_mem_significant (h : n.WellFormed) (hc : c ∈ n.significant) : c.isDigit := by
  have hmem : c ∈ n.digits := by
    obtain ⟨i, j, hdigits⟩ := n.exists_zeros
    rw [hdigits]
    exact List.mem_append_right _ (List.mem_append_left _ hc)
  rcases List.mem_append.mp hmem with hwhole | hbehind
  · exact h.isDigit_whole c hwhole
  · cases hfraction : n.fraction with
    | none =>
        rw [hfraction] at hbehind
        cases hbehind
    | some digits =>
        rw [hfraction] at hbehind
        exact h.isDigit_fraction digits hfraction c hbehind

/-- No zero stands in front of the significant digits. -/
theorem ne_zero_of_significant_cons (h : n.significant = c :: digits) : c ≠ '0' := by
  rintro rfl
  have hhead : (n.digits.dropWhile (· == '0')).head? = some '0' := by
    obtain ⟨rest, hrest⟩ := List.rdropWhile_prefix (· == '0') (n.digits.dropWhile (· == '0'))
    rw [← hrest, ← significant, h]
    rfl
  have hnot := halts_dropWhile (· == '0') n.digits '0' hhead
  cases hnot

/-- And none behind them. -/
theorem ne_zero_of_significant_concat (h : n.significant = digits ++ [c]) : c ≠ '0' := by
  rintro rfl
  have hne : n.significant ≠ [] := by
    rw [h]
    exact List.concat_ne_nil _ _
  have hlast : n.significant.getLast hne = '0' := by
    simp only [h, List.getLast_concat]
  have hnot : ¬ (n.significant.getLast hne == '0') = true := List.rdropWhile_last_not _ _ hne
  rw [hlast] at hnot
  exact hnot rfl

/-- The fraction is that of the significant digits, up to a power of ten. -/
theorem exists_toRat (n : Numeral) :
    ∃ e : ℤ, n.toRat = (Nat.ofDigitChars 10 n.significant 0 : Nat) * 10 ^ e := by
  obtain ⟨j, hj⟩ := n.exists_numerator
  have hdenominator : n.denominator = 10 ^ n.places := rfl
  refine ⟨j - n.places, ?_⟩
  rw [toRat, hj, hdenominator, zpow_sub₀ (by decide), zpow_natCast, zpow_natCast]
  push_cast
  ring

/-- **The significant digits of a numeral are as few as there can be**: its fraction is a decimal of
so many digits, and of no fewer. -/
theorem isDecimal_iff (h : n.WellFormed) :
    IsDecimal k n.toRat ↔ n.significant.length ≤ k := by
  obtain ⟨f, hf⟩ := n.exists_toRat
  have hdigits : ∀ c ∈ n.significant, c.isDigit := fun _ => isDigit_of_mem_significant h
  constructor
  · rintro ⟨coefficient, e, hfew, heq⟩
    rcases List.eq_nil_or_concat' n.significant with hnil | ⟨front, last, hconcat⟩
    · rw [hnil]
      exact Nat.zero_le k
    · obtain ⟨first, rest, hcons⟩ : ∃ first rest, n.significant = first :: rest := by
        apply List.exists_cons_of_ne_nil
        rw [hconcat]
        exact List.concat_ne_nil _ _
      have hend : Nat.ofDigitChars 10 n.significant 0 % 10 ≠ 0 := by
        have hlast : last.isDigit := hdigits last (by simp [hconcat])
        rw [hconcat]
        exact ofDigitChars_concat_mod_ten hlast (ne_zero_of_significant_concat hconcat)
      have hstart : 10 ^ rest.length ≤ Nat.ofDigitChars 10 n.significant 0 := by
        have hfirst : first.isDigit := hdigits first (by simp [hcons])
        rw [hcons]
        exact le_ofDigitChars hfirst (ne_zero_of_significant_cons hcons)
      have hle := le_natAbs_of_mul_zpow_eq hend (hf.symm.trans heq)
      have hlt : rest.length < k := (Nat.pow_lt_pow_iff_right (by decide)).mp
        (Nat.lt_of_le_of_lt (hstart.trans hle) hfew)
      rw [hcons]
      exact hlt
  · intro hle
    refine ⟨(Nat.ofDigitChars 10 n.significant 0 : Nat), f, ?_, ?_⟩
    · rw [Int.natAbs_natCast]
      exact Nat.lt_of_lt_of_le (ofDigitChars_lt hdigits) (Nat.pow_le_pow_right (by decide) hle)
    · exact hf

/-- Of `0.0120` two digits are significant. -/
example : significant ⟨['0'], some ['0', '1', '2', '0']⟩ = ['1', '2'] := by decide

end Numeral

end LoxLexer
