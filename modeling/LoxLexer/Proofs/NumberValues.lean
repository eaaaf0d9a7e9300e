import LoxLexer.Proofs.NumberText
import LoxLexer.Proofs.Spelling

/-!
# Numbers are rounded correctly

A number in a source is a fraction, and the literal of its token is the binary64 that is nearest to
it, however many digits there are (`lex_correctlyRounded`). `CorrectlyRounded` says what this means
among all binary64 numbers, the ones below zero included, and from where on a fraction is too small
or too large for them. It holds of one number only (`CorrectlyRounded.unique`).

Which magnitude a fraction goes to is known from the midpoints alone: it goes no higher than to some
magnitude if it is not above the midpoint there (`RoundsTo.le_iff`). The least midpoint and the one
behind the last finite number are the borders for zero and for infinity.
-/

set_option autoImplicit false

namespace LoxLexer

namespace Binary64

/-! ## Definitions -/

/-- The fraction that a finite number stands for. -/
def toRat (x : Binary64) : ℚ := (if x.negative then -(x.units : ℚ) else x.units) / unitsPerOne

/-- **A number is the correctly rounded value of a fraction** that is not below zero. -/
structure CorrectlyRounded (q : ℚ) (x : Binary64) : Prop where
  not_nan : x.isNaN = false
  not_negative : x.negative = false
  zero_iff : x.isZero = true ↔ q ≤ 1 / 2 ^ 1075
  infinite_iff : x.magnitude = infiniteMagnitude ↔ 2 ^ 1024 - 2 ^ 970 ≤ q
  /-- No finite number is nearer. -/
  nearest : x.isFinite = true → ∀ y : Binary64, y.isFinite = true →
    |q - x.toRat| ≤ |q - y.toRat|
  /-- If another one is as near, the significand is even. -/
  tie_even : x.isFinite = true → ∀ y : Binary64, y.isFinite = true → y.toRat ≠ x.toRat →
    |q - y.toRat| = |q - x.toRat| → x.significand % 2 = 0

/-! ## The magnitude that a fraction goes to -/

variable {q : ℚ} {m : Nat} {x y : Binary64}

theorem cast_midpoint (k : Nat) : (midpoint k : ℚ) = unitsOf k + unitsOf (k + 1) := Nat.cast_add _ _

/-- **Bounds of the magnitude are midpoints**: a fraction goes no higher than to `k` if it is below
the midpoint above `k`, or is that midpoint and `k` is even. -/
theorem RoundsTo.le_iff (h : RoundsTo q m) (k : Nat) :
    m ≤ k ↔ 2 * q < midpoint k ∨ (2 * q = midpoint k ∧ k % 2 = 0) := by
  constructor
  · intro hle
    rcases Nat.eq_or_lt_of_le hle with rfl | hlt
    · rcases lt_or_eq_of_le h.upper with hbelow | hmidpoint
      · exact Or.inl hbelow
      · exact Or.inr ⟨hmidpoint, h.upper_even hmidpoint⟩
    · have hless : (midpoint m : ℚ) < midpoint k := Nat.cast_lt.mpr (midpoint_strictMono hlt)
      exact Or.inl (lt_of_le_of_lt h.upper hless)
  · intro hbound
    by_contra hnot
    obtain ⟨below, rfl⟩ := Nat.exists_eq_add_one_of_ne_zero (Nat.ne_zero_of_lt (not_le.mp hnot))
    have hlower := h.lower below rfl
    have hmono : (midpoint k : ℚ) ≤ midpoint below :=
      Nat.cast_le.mpr (midpoint_strictMono.monotone (by omega))
    -- the fraction is the midpoint between `k` and the next magnitude, and both would be even
    rcases hbound with hless | ⟨hmidpoint, heven⟩
    · linarith
    · have hsame : (midpoint below : ℚ) = midpoint k := by linarith
      obtain rfl := midpoint_strictMono.injective (Nat.cast_injective hsame)
      have heven' := h.lower_even below rfl hmidpoint.symm
      omega

/-- Up to half a unit a fraction goes to zero. -/
theorem RoundsTo.eq_zero_iff (h : RoundsTo q m) : m = 0 ↔ 2 * q ≤ 1 := by
  have hmidpoint : (midpoint 0 : ℚ) = 1 := by
    rw [show midpoint 0 = 1 from rfl, Nat.cast_one]
  rw [← Nat.le_zero, h.le_iff 0, hmidpoint, le_iff_lt_or_eq]
  exact or_congr_right (and_iff_left rfl)

/-- From the midpoint behind the last finite number on it goes to infinity. -/
theorem RoundsTo.infinite_iff (h : RoundsTo q m) :
    infiniteMagnitude ≤ m ↔ (midpoint (infiniteMagnitude - 1) : ℚ) ≤ 2 * q := by
  have hodd : ¬ (infiniteMagnitude - 1) % 2 = 0 := by decide
  have hpred : infiniteMagnitude ≤ m ↔ ¬ m ≤ infiniteMagnitude - 1 := by
    have hpos : 0 < infiniteMagnitude := by decide
    omega
  rw [hpred, h.le_iff, ← Rat.not_lt]
  exact not_congr (or_iff_left fun hboth => hodd hboth.2)

/-- **Where another magnitude is as near**, a fraction goes to an even one. -/
theorem RoundsTo.even_of_abs_sub_eq {n : Nat} (h : RoundsTo q m) (hne : n ≠ m)
    (heq : |q - unitsOf n| = |q - unitsOf m|) : m % 2 = 0 := by
  -- the fraction lies halfway between the two
  have hhalf : (unitsOf n : ℚ) + unitsOf m = 2 * q := by
    rcases abs_eq_abs.mp heq with hsame | hopposite
    · have hunits : (unitsOf n : ℚ) = unitsOf m := by linarith
      exact absurd (unitsOf_strictMono.injective (Nat.cast_injective hunits)) hne
    · linarith
  rcases Nat.lt_or_gt_of_ne hne with hlt | hgt
  · obtain ⟨below, rfl⟩ := Nat.exists_eq_add_one_of_ne_zero (Nat.ne_zero_of_lt hlt)
    have hunits : (unitsOf n : ℚ) ≤ unitsOf below :=
      Nat.cast_le.mpr (unitsOf_strictMono.monotone (Nat.le_of_lt_succ hlt))
    have hlower := h.lower below rfl
    refine h.lower_even below rfl ?_
    rw [cast_midpoint] at hlower ⊢
    linarith
  · have hunits : (unitsOf (m + 1) : ℚ) ≤ unitsOf n :=
      Nat.cast_le.mpr (unitsOf_strictMono.monotone hgt)
    have hupper := h.upper
    refine h.upper_even ?_
    rw [cast_midpoint] at hupper ⊢
    linarith

/-! ## Borders and distances of numbers -/

theorem unitsPerOne_pos : (0 : ℚ) < unitsPerOne := by
  rw [cast_unitsPerOne]
  positivity

/-- Half a unit is the border for zero. -/
theorem half_unit_iff : 2 * (q * unitsPerOne) ≤ 1 ↔ q ≤ 1 / 2 ^ 1075 := by
  rw [cast_unitsPerOne, le_div_iff₀ (by positivity), mul_left_comm, ← pow_succ']

/-- The midpoint behind the last finite number, in units. -/
theorem midpoint_lastFinite : midpoint (infiniteMagnitude - 1) + 2 ^ 2045 = 2 ^ 2099 := by
  decide +kernel

/-- It is the border for infinity. -/
theorem lastFinite_iff :
    (midpoint (infiniteMagnitude - 1) : ℚ) ≤ 2 * (q * unitsPerOne) ↔ 2 ^ 1024 - 2 ^ 970 ≤ q := by
  have hmidpoint := congrArg (Nat.cast : Nat → ℚ) midpoint_lastFinite
  simp only [Nat.cast_add, Nat.cast_pow, Nat.cast_ofNat] at hmidpoint
  have hscale : (2 : ℚ) ^ 2099 - 2 ^ 2045 = 2 ^ 1075 * (2 ^ 1024 - 2 ^ 970) := by
    rw [mul_sub, ← pow_add, ← pow_add]
  rw [eq_sub_of_add_eq hmidpoint, cast_unitsPerOne, mul_left_comm, ← pow_succ', hscale, mul_comm q]
  exact mul_le_mul_iff_right₀ (by positivity)

theorem toRat_of_not_negative (hsign : x.negative = false) :
    x.toRat = unitsOf x.magnitude / unitsPerOne := by
  rw [toRat, hsign, ← units_eq]
  rfl

theorem toRat_of_negative (hsign : x.negative = true) :
    x.toRat = -(unitsOf x.magnitude / unitsPerOne) := by
  rw [toRat, hsign, if_pos rfl, neg_div, units_eq]

/-- How far a number without a sign is, counted in units. -/
theorem abs_sub_toRat (hsign : x.negative = false) :
    |q - x.toRat| * unitsPerOne = |q * unitsPerOne - unitsOf x.magnitude| := by
  have hscaled : (q - x.toRat) * unitsPerOne = q * unitsPerOne - unitsOf x.magnitude := by
    rw [toRat_of_not_negative hsign, sub_mul, div_mul_cancel₀ _ unitsPerOne_pos.ne']
  rw [← hscaled, abs_mul, abs_of_pos unitsPerOne_pos]

/-- One with a sign is no nearer than the one without it. -/
theorem abs_sub_le_toRat (hq : 0 ≤ q) (y : Binary64) :
    |q * unitsPerOne - unitsOf y.magnitude| ≤ |q - y.toRat| * unitsPerOne := by
  cases hsign : y.negative with
  | false => exact (abs_sub_toRat hsign).ge
  | true =>
      have hunits : (0 : ℚ) ≤ unitsOf y.magnitude := Nat.cast_nonneg _
      have hpos : 0 ≤ q * unitsPerOne := mul_nonneg hq unitsPerOne_pos.le
      have hscaled : (q - y.toRat) * unitsPerOne = q * unitsPerOne + unitsOf y.magnitude := by
        rw [toRat_of_negative hsign, sub_neg_eq_add, add_mul,
          div_mul_cancel₀ _ unitsPerOne_pos.ne']
      have habs : |q - y.toRat| * unitsPerOne = |q * unitsPerOne + unitsOf y.magnitude| := by
        rw [← hscaled, abs_mul, abs_of_pos unitsPerOne_pos]
      rw [habs]
      refine (abs_le.mpr ⟨?_, ?_⟩).trans (le_abs_self _) <;> linarith

/-! ## What a fraction goes to is correct -/

/-- No finite number is nearer to a fraction than the one that it goes to. -/
theorem RoundsTo.abs_sub_toRat_le (hq : 0 ≤ q) (h : RoundsTo (q * unitsPerOne) x.magnitude)
    (hsign : x.negative = false) (y : Binary64) : |q - x.toRat| ≤ |q - y.toRat| := by
  refine le_of_mul_le_mul_right ?_ unitsPerOne_pos
  calc
    |q - x.toRat| * unitsPerOne
      = |q * unitsPerOne - unitsOf x.magnitude| := abs_sub_toRat hsign
    _ ≤ |q * unitsPerOne - unitsOf y.magnitude| := h.abs_sub_le _
    _ ≤ |q - y.toRat| * unitsPerOne := abs_sub_le_toRat hq y

/-- And if another one is as near, its significand is even. -/
theorem RoundsTo.even_of_toRat (hq : 0 ≤ q) (h : RoundsTo (q * unitsPerOne) x.magnitude)
    (hsign : x.negative = false) (hne : y.toRat ≠ x.toRat)
    (heq : |q - y.toRat| = |q - x.toRat|) : x.significand % 2 = 0 := by
  rw [← magnitude_mod_two]
  by_cases hmagnitude : y.magnitude = x.magnitude
  · have hsign' : y.negative = true := by
      by_contra hnot
      have hpositive : y.negative = false := Bool.not_eq_true _ ▸ hnot
      exact hne (by rw [toRat_of_not_negative hpositive, toRat_of_not_negative hsign, hmagnitude])
    -- a number and its negative are equally near to zero only, which goes to zero
    have hopposite : y.toRat = -x.toRat := by
      rw [toRat_of_negative hsign', toRat_of_not_negative hsign, hmagnitude]
    have hzero : q = 0 := by
      rw [hopposite, sub_neg_eq_add] at heq
      rcases abs_eq_abs.mp heq with hsame | hflipped
      · have hx : x.toRat = 0 := by linarith
        exact absurd (by rw [hopposite, hx, neg_zero]) hne
      · linarith
    have hbelow : 2 * (q * unitsPerOne) ≤ 1 := by
      rw [hzero, zero_mul, mul_zero]
      exact zero_le_one
    rw [h.eq_zero_iff.mpr hbelow]
  · refine h.even_of_abs_sub_eq hmagnitude (le_antisymm ?_ (h.abs_sub_le _))
    rw [← abs_sub_toRat hsign, ← heq]
    exact abs_sub_le_toRat hq y

/-- **The number of the magnitude that a fraction goes to is correct**, if those above infinity are
taken for infinity. -/
theorem RoundsTo.correctlyRounded (hq : 0 ≤ q) (h : RoundsTo (q * unitsPerOne) m)
    (hsign : x.negative = false) (hmin : x.magnitude = min m infiniteMagnitude) :
    CorrectlyRounded q x := by
  have hfinite : x.isFinite = true → RoundsTo (q * unitsPerOne) x.magnitude := by
    intro hless
    have hlt : x.magnitude < infiniteMagnitude := of_decide_eq_true hless
    have hm : x.magnitude = m := by omega
    rwa [hm]
  constructor
  case not_nan =>
    refine decide_eq_false ?_
    omega
  case not_negative => exact hsign
  case zero_iff =>
    have hm : x.magnitude = 0 ↔ m = 0 := by
      have hpos : 0 < infiniteMagnitude := by decide
      omega
    rw [isZero, decide_eq_true_iff, hm, h.eq_zero_iff, half_unit_iff]
  case infinite_iff =>
    have hm : x.magnitude = infiniteMagnitude ↔ infiniteMagnitude ≤ m := by omega
    rw [hm, h.infinite_iff, lastFinite_iff]
  case nearest => exact fun hless y _ => (hfinite hless).abs_sub_toRat_le hq hsign y
  case tie_even => exact fun hless y _ => (hfinite hless).even_of_toRat hq hsign

/-- **Rounding a quotient to the nearest binary64 is correct.** -/
theorem correctlyRounded_nearest (num : Nat) {den : Nat} (hden : 0 < den) :
    CorrectlyRounded ((num : ℚ) / den) (nearest num den) := by
  have hq : 0 ≤ (num : ℚ) / den := div_nonneg (Nat.cast_nonneg _) (Nat.cast_nonneg _)
  have hplace := roundsTo_place (num * unitsPerOne) hden
  rw [Nat.cast_mul, mul_div_right_comm] at hplace
  exact hplace.correctlyRounded hq rfl rfl

/-! ## Nothing else is correct -/

/-- The greater one of two numbers is as near if a fraction is not below the middle. -/
theorem abs_sub_greater_le_iff {a b : ℚ} (hlt : a < b) : |q - b| ≤ |q - a| ↔ a + b ≤ 2 * q := by
  rw [← sq_le_sq]
  constructor <;> intro h <;> nlinarith

/-- The lesser one is, if a fraction is not above it. -/
theorem abs_sub_lesser_le_iff {a b : ℚ} (hlt : a < b) : |q - a| ≤ |q - b| ↔ 2 * q ≤ a + b := by
  rw [← sq_le_sq]
  constructor <;> intro h <;> nlinarith

/-- Finite numbers without a sign are no nearer than a correctly rounded one, in units. -/
theorem CorrectlyRounded.abs_sub_le (h : CorrectlyRounded q x) (hfinite : x.isFinite = true)
    {n : Nat} (hn : n < infiniteMagnitude) :
    |q * unitsPerOne - unitsOf x.magnitude| ≤ |q * unitsPerOne - unitsOf n| ∧
      (n ≠ x.magnitude → |q * unitsPerOne - unitsOf n| = |q * unitsPerOne - unitsOf x.magnitude| →
        x.magnitude % 2 = 0) := by
  obtain ⟨y, hsign, rfl⟩ : ∃ y : Binary64, y.negative = false ∧ y.magnitude = n :=
    ⟨⟨false, n, Nat.lt_trans hn (by decide)⟩, rfl, rfl⟩
  have hy : y.isFinite = true := decide_eq_true hn
  rw [← abs_sub_toRat h.not_negative, ← abs_sub_toRat hsign]
  constructor
  · exact mul_le_mul_of_nonneg_right (h.nearest hfinite y hy) unitsPerOne_pos.le
  · intro hne heq
    have hvalue : y.toRat ≠ x.toRat := by
      rw [toRat_of_not_negative hsign, toRat_of_not_negative h.not_negative]
      intro hsame
      have hunits := (div_left_inj' unitsPerOne_pos.ne').mp hsame
      exact hne (unitsOf_strictMono.injective (Nat.cast_injective hunits))
    rw [magnitude_mod_two]
    exact h.tie_even hfinite y hy hvalue (mul_right_cancel₀ unitsPerOne_pos.ne' heq)

/-- A fraction goes to the finite number that is its correctly rounded value. -/
theorem CorrectlyRounded.roundsTo (h : CorrectlyRounded q x) (hfinite : x.isFinite = true) :
    RoundsTo (q * unitsPerOne) x.magnitude := by
  have hgap (k : Nat) : (unitsOf k : ℚ) < unitsOf (k + 1) :=
    Nat.cast_lt.mpr (unitsOf_strictMono (Nat.lt_succ_self k))
  have hlt : x.magnitude < infiniteMagnitude := of_decide_eq_true hfinite
  -- above the last finite number there is no other one, but infinity is not reached
  have hlast : ¬ x.magnitude + 1 < infiniteMagnitude →
      2 * (q * unitsPerOne) < midpoint x.magnitude := by
    intro hnot
    have hpred : x.magnitude = infiniteMagnitude - 1 := by omega
    rw [hpred, ← Rat.not_le, lastFinite_iff, ← h.infinite_iff]
    exact Nat.ne_of_lt hlt
  constructor
  case lower =>
    intro below hbelow
    have hnear := (h.abs_sub_le hfinite (n := below) (by omega)).1
    rw [hbelow, abs_sub_greater_le_iff (hgap below)] at hnear
    rwa [cast_midpoint]
  case lower_even =>
    intro below hbelow heq
    refine (h.abs_sub_le hfinite (n := below) (by omega)).2 (by omega) ?_
    rw [cast_midpoint] at heq
    rw [hbelow, abs_eq_abs]
    exact Or.inr (by linarith)
  case upper =>
    by_cases hnext : x.magnitude + 1 < infiniteMagnitude
    · have hnear := (h.abs_sub_le hfinite hnext).1
      rw [abs_sub_lesser_le_iff (hgap _)] at hnear
      rwa [cast_midpoint]
    · exact (hlast hnext).le
  case upper_even =>
    intro heq
    by_cases hnext : x.magnitude + 1 < infiniteMagnitude
    · refine (h.abs_sub_le hfinite hnext).2 (Nat.succ_ne_self _) ?_
      rw [cast_midpoint] at heq
      rw [abs_eq_abs]
      exact Or.inr (by linarith)
    · exact absurd heq (hlast hnext).ne

/-- **A fraction has one correctly rounded value only.** -/
theorem CorrectlyRounded.unique (hx : CorrectlyRounded q x) (hy : CorrectlyRounded q y) :
    x = y := by
  refine ext_of_magnitude (hx.not_negative.trans hy.not_negative.symm) ?_
  have hinfinite : x.magnitude = infiniteMagnitude ↔ y.magnitude = infiniteMagnitude :=
    hx.infinite_iff.trans hy.infinite_iff.symm
  by_cases htop : x.magnitude = infiniteMagnitude
  · rw [htop, hinfinite.mp htop]
  · have hfinite {z : Binary64} (hz : z.isNaN = false) (hnot : z.magnitude ≠ infiniteMagnitude) :
        z.isFinite = true := by
      have hle := of_decide_eq_false hz
      exact decide_eq_true (by omega)
    have htop' : y.magnitude ≠ infiniteMagnitude := fun h => htop (hinfinite.mpr h)
    exact (hx.roundsTo (hfinite hx.not_nan htop)).unique (hy.roundsTo (hfinite hy.not_nan htop'))

end Binary64

/-! ## The numbers of a source -/

/-- A number is spelled as a numeral. -/
theorem Spelled.exists_numeral {lexeme : String} {literal : Literal}
    (h : Spelled .number lexeme literal) :
    ∃ n : Numeral, n.WellFormed ∧ lexeme = String.ofList n.text ∧ literal = .number n.value := by
  generalize hkind : Kind.number = kind at h
  cases h with
  | number hwellFormed => exact ⟨_, hwellFormed, rfl, rfl⟩
  | _ => cases hkind

/-- **Number tokens hold correctly rounded values**: the lexeme of a number token writes a numeral,
which is read, and the literal is the correctly rounded value of the fraction that it stands for. -/
theorem lex_correctlyRounded (source : String) :
    ∀ t ∈ (lex source).tokens, t.kind = .number →
      ∃ n x, Numeral.ofText? t.lexeme.toList = some n ∧ n.WellFormed ∧
        t.lexeme = String.ofList n.text ∧ t.literal = .number x ∧
        x.CorrectlyRounded n.toRat ∧ ∀ y : Binary64, y.CorrectlyRounded n.toRat → y = x := by
  intro t ht hkind
  have hspelled := spelled_of_mem_tokens source t ht
  rw [hkind] at hspelled
  obtain ⟨n, hwellFormed, hlexeme, hliteral⟩ := hspelled.exists_numeral
  have hrounded : n.value.CorrectlyRounded n.toRat :=
    Binary64.correctlyRounded_nearest _ (Nat.pow_pos (by decide))
  refine ⟨n, n.value, ?_, hwellFormed, hlexeme, hliteral, hrounded, fun y hy => hy.unique hrounded⟩
  rw [hlexeme, String.toList_ofList, Numeral.ofText?_text hwellFormed]

/-- This one lies halfway between two numbers; the literal is the one below, which is even. -/
theorem correctlyRounded_halfway :
    ∃ t ∈ (lex "(9007199254740993.0").tokens, t.kind = .number ∧
      t.literal = .number (Binary64.ofBits 0x4340000000000000) ∧
      (Binary64.ofBits 0x4340000000000000).CorrectlyRounded 9007199254740993 := by
  have hmem : ⟨.number, "9007199254740993.0", .number (.ofBits 0x4340000000000000), 1, ⟨1, 18⟩⟩ ∈
      (lex "(9007199254740993.0").tokens := by decide +kernel
  obtain ⟨n, x, hread, -, -, hliteral, hrounded, -⟩ := lex_correctlyRounded _ _ hmem rfl
  have hn : Numeral.ofText? "9007199254740993.0".toList =
      some ⟨"9007199254740993".toList, some ['0']⟩ := by decide +kernel
  have hfraction : Numeral.toRat ⟨"9007199254740993".toList, some ['0']⟩ = 9007199254740993 := by
    have hnumerator : Numeral.numerator ⟨"9007199254740993".toList, some ['0']⟩ =
        90071992547409930 := by decide +kernel
    have hdenominator : Numeral.denominator ⟨"9007199254740993".toList, some ['0']⟩ = 10 := rfl
    rw [Numeral.toRat, hnumerator, hdenominator]
    norm_num
  obtain rfl := Option.some.inj (hn.symm.trans hread)
  obtain rfl := Literal.number.inj hliteral
  rw [hfraction] at hrounded
  exact ⟨_, hmem, rfl, rfl, hrounded⟩

end LoxLexer
