import Mathlib.Algebra.Order.Field.Power
import Mathlib.Tactic.FieldSimp
import Mathlib.Tactic.LinearCombination
import Mathlib.Tactic.Ring
import LoxLexer.Number.Shortest
import LoxLexer.Proofs.Rounding

/-!
# The shortest decimal reads back

The search for the shortest decimal of a number looks at the points of a window, and each point that
the window holds rounds to the number (`roundsTo_of_holds`): the borders of the window are the
midpoints between the number and its neighbours. So does the exact value, which is taken where the
search finds nothing. Hence the shortest decimal is read as the number that it was made for
(`ofRat_shortest`), whatever the number and the tie rule are.
-/

set_option autoImplicit false

namespace LoxLexer

/-! ## Decimals as fractions -/

/-- The fraction that a decimal stands for. -/
def Decimal.toRat (d : Decimal) : ℚ := d.coefficient * 10 ^ d.exponent

theorem Decimal.toRat_nonneg (d : Decimal) : 0 ≤ d.toRat :=
  mul_nonneg (Nat.cast_nonneg _) (zpow_nonneg (by decide) _)

/-- Zeros at the end of the coefficient do not count. -/
theorem Decimal.toRat_trim (d : Decimal) : d.trim.toRat = d.toRat := by
  fun_induction Decimal.trim d with
  | case1 d h ih =>
      have hten : d.coefficient = d.coefficient / 10 * 10 := by omega
      rw [ih]
      calc
        (d.coefficient / 10 : Nat) * (10 : ℚ) ^ (d.exponent + 1)
          = ((d.coefficient / 10 * 10 : Nat) : ℚ) * 10 ^ d.exponent := by
            rw [zpow_add_one₀ (by decide), Nat.cast_mul, Nat.cast_ofNat]
            ring
        _ = d.coefficient * 10 ^ d.exponent := by rw [← hten]
  | case2 d h => rfl

/-! ## The borders of a window -/

variable {w : Window} {point : Nat}

/-- A point that a window holds is not outside its borders, and on a border only of a closed one. -/
theorem Window.bounds_of_holds (h : w.holds point = true) (hborders : w.lower ≤ w.upper) :
    (w.lower ≤ point * w.scale ∧ (w.lower = point * w.scale → w.closed = true)) ∧
      (point * w.scale ≤ w.upper ∧ (point * w.scale = w.upper → w.closed = true)) := by
  simp only [Window.holds, Bool.or_eq_true, Bool.and_eq_true, decide_eq_true_eq, beq_iff_eq] at h
  rcases h with ⟨hlower, hupper⟩ | ⟨hclosed, hborder⟩
  · omega
  · refine ⟨⟨?_, fun _ => hclosed⟩, ?_, fun _ => hclosed⟩ <;> omega

namespace Binary64

variable {x : Binary64}

/-- Magnitude and significand are even together. -/
theorem magnitude_mod_two (x : Binary64) : x.magnitude % 2 = x.significand % 2 := by
  rw [significand, exponentField, fraction]
  split <;> omega

/-- The window ends halfway to the next number. -/
theorem two_mul_midpoint (x : Binary64) :
    2 * midpoint x.magnitude = (4 * x.significand + 2) * 2 ^ x.shift := by
  have hunits : unitsOf x.magnitude = x.significand * 2 ^ x.shift := rfl
  have hgap : 2 ^ (x.magnitude / 2 ^ 52 - 1) = 2 ^ x.shift := rfl
  rw [midpoint_eq, hunits, hgap]
  ring

/-- It begins halfway from the number below, which is nearer at a power of two. -/
theorem two_mul_midpoint_below {below : Nat} (h : x.magnitude = below + 1) :
    2 * midpoint below =
      (4 * x.significand - if x.gapNarrows then 1 else 2) * 2 ^ x.shift := by
  have hunits : unitsOf (below + 1) = x.significand * 2 ^ x.shift := h ▸ rfl
  have hdouble : 2 * midpoint below + 2 * 2 ^ (below / 2 ^ 52 - 1) =
      4 * x.significand * 2 ^ x.shift := by
    rw [← Nat.mul_add, midpoint_add_gap, hunits]
    ring
  rw [Nat.sub_mul, ← hdouble]
  by_cases hnarrow : x.gapNarrows = true
  · have hfields := of_decide_eq_true hnarrow
    rw [fraction, exponentField] at hfields
    have hshift : x.shift = below / 2 ^ 52 - 1 + 1 := by
      rw [shift, exponentField]
      omega
    rw [if_pos hnarrow, hshift, Nat.pow_succ]
    omega
  · have hfields : ¬ (x.fraction = 0 ∧ 1 < x.exponentField) := fun hboth =>
      hnarrow (decide_eq_true hboth)
    rw [fraction, exponentField] at hfields
    have hshift : x.shift = below / 2 ^ 52 - 1 := by
      rw [shift, exponentField]
      omega
    rw [if_neg hnarrow, hshift]
    omega

/-! ## The points of the window -/

theorem cast_unitsPerOne : (unitsPerOne : ℚ) = 2 ^ 1074 := by
  simp only [unitsPerOne, Nat.cast_pow, Nat.cast_ofNat]

/-- The units that a point of the window of `x` stands for. -/
def pointUnits (x : Binary64) (point : Nat) : ℚ :=
  point / 10 ^ x.window.places * unitsPerOne

/-- A decimal with digits at some place and above stands for a point. -/
theorem toRat_point (x : Binary64) (c place : Nat) :
    Decimal.toRat ⟨c, place - x.window.places⟩ * unitsPerOne = x.pointUnits (c * 10 ^ place) := by
  rw [Decimal.toRat, pointUnits, zpow_sub₀ (by decide), zpow_natCast, zpow_natCast]
  push_cast
  ring

/-- A quarter of the gap above a number, as its window counts. -/
def quarter (x : Binary64) : Nat := 2 ^ (x.shift - 1074) * 10 ^ x.window.places

theorem quarter_pos (x : Binary64) : 0 < x.quarter :=
  Nat.mul_pos (Nat.two_pow_pos _) (Nat.pow_pos (by decide))

/-- A window counts in quarters of the gap and to so many places. -/
theorem scale_mul_two_pow_shift (x : Binary64) (point : Nat) :
    ((point * x.window.scale : Nat) : ℚ) * 2 ^ x.shift = 4 * x.pointUnits point * x.quarter := by
  have hscale : x.window.scale = 4 * 2 ^ (1074 - x.shift) := rfl
  have hsum : 1074 - x.shift + x.shift = 1074 + (x.shift - 1074) := by omega
  have hunit : (2 : ℚ) ^ (1074 - x.shift) * 2 ^ x.shift =
      unitsPerOne * 2 ^ (x.shift - 1074) := by
    rw [cast_unitsPerOne, ← pow_add, ← pow_add, hsum]
  have hplaces : (10 : ℚ) ^ x.window.places ≠ 0 := pow_ne_zero _ (by decide)
  calc
    ((point * x.window.scale : Nat) : ℚ) * 2 ^ x.shift
      = point * 4 * (2 ^ (1074 - x.shift) * 2 ^ x.shift) := by
        rw [hscale]
        push_cast
        ring
    _ = point * 4 * (unitsPerOne * 2 ^ (x.shift - 1074)) := by rw [hunit]
    _ = 4 * x.pointUnits point * x.quarter := by
        rw [pointUnits, quarter]
        push_cast
        generalize (unitsPerOne : ℚ) = unit
        field_simp

/-- Points and borders of a window are fractions and midpoints, counted by some `c`. -/
theorem exists_window_scale (x : Binary64) (point : Nat) : ∃ c : ℚ, 0 < c ∧
    ((point * x.window.scale : Nat) : ℚ) = 2 * x.pointUnits point * c ∧
    (x.window.upper : ℚ) = midpoint x.magnitude * c ∧
    ∀ below, x.magnitude = below + 1 → (x.window.lower : ℚ) = midpoint below * c := by
  have hshift : (2 : ℚ) ^ x.shift ≠ 0 := pow_ne_zero _ (by decide)
  obtain ⟨c, hc⟩ : ∃ c : ℚ, c * 2 ^ x.shift = 2 * x.quarter := ⟨_, div_mul_cancel₀ _ hshift⟩
  have hborder (quarters halfway : Nat) (hmidpoint : 2 * halfway = quarters * 2 ^ x.shift) :
      ((quarters * x.quarter : Nat) : ℚ) = halfway * c := by
    have hcast : (2 * halfway : ℚ) = quarters * 2 ^ x.shift := by exact_mod_cast hmidpoint
    refine mul_right_cancel₀ hshift ?_
    rw [mul_assoc _ c, hc, Nat.cast_mul]
    linear_combination (-(x.quarter : ℚ)) * hcast
  refine ⟨c, ?_, ?_, ?_, ?_⟩
  · have hquarter : (0 : ℚ) < x.quarter := Nat.cast_pos.mpr x.quarter_pos
    have hproduct : 0 < c * 2 ^ x.shift := by linarith
    exact pos_of_mul_pos_left hproduct (pow_nonneg (by decide) _)
  · refine mul_right_cancel₀ hshift ?_
    rw [scale_mul_two_pow_shift, mul_assoc _ c, hc]
    ring
  · exact hborder _ _ (two_mul_midpoint x)
  · exact fun below hbelow => hborder _ _ (two_mul_midpoint_below hbelow)

/-- **Every point of its window rounds to the number.** -/
theorem roundsTo_of_holds (h : x.window.holds point = true) :
    RoundsTo (x.pointUnits point) x.magnitude := by
  obtain ⟨c, hc, hpoint, hupper, hlower⟩ := exists_window_scale x point
  have hordered : x.window.lower ≤ x.window.upper :=
    Nat.mul_le_mul_right _ (Nat.le_trans (Nat.sub_le _ _) (Nat.le_add_right _ 2))
  obtain ⟨⟨hlow, hlowClosed⟩, hhigh, hhighClosed⟩ := Window.bounds_of_holds h hordered
  have heven (hclosed : x.window.closed = true) : x.magnitude % 2 = 0 := by
    rw [magnitude_mod_two]
    exact beq_iff_eq.mp hclosed
  constructor
  case lower =>
    intro below hbelow
    refine le_of_mul_le_mul_right ?_ hc
    rw [← hlower below hbelow, ← hpoint]
    exact Nat.cast_le.mpr hlow
  case lower_even =>
    intro below hbelow hsame
    have hedge : (x.window.lower : ℚ) = (point * x.window.scale : Nat) := by
      rw [hlower below hbelow, hsame, hpoint]
    exact heven (hlowClosed (Nat.cast_injective hedge))
  case upper =>
    refine le_of_mul_le_mul_right ?_ hc
    rw [← hupper, ← hpoint]
    exact Nat.cast_le.mpr hhigh
  case upper_even =>
    intro hsame
    have hedge : ((point * x.window.scale : Nat) : ℚ) = x.window.upper := by
      rw [hpoint, hsame, hupper]
    exact heven (hhighClosed (Nat.cast_injective hedge))

/-- So does its exact value. -/
theorem roundsTo_units (x : Binary64) : RoundsTo x.units x.magnitude := by
  have hunits : 2 * (x.units : ℚ) = ((2 * unitsOf x.magnitude : Nat) : ℚ) := by
    rw [units_eq, Nat.cast_mul, Nat.cast_ofNat]
  have hbelow (below : Nat) (h : x.magnitude = below + 1) :
      midpoint below < 2 * unitsOf x.magnitude := by
    rw [h, ← midpoint_add_gap]
    exact Nat.lt_add_of_pos_right (Nat.two_pow_pos _)
  have habove : 2 * unitsOf x.magnitude < midpoint x.magnitude := by
    rw [midpoint_eq]
    exact Nat.lt_add_of_pos_right (Nat.two_pow_pos _)
  constructor
  case lower => exact fun below h => hunits ▸ Nat.cast_le.mpr (Nat.le_of_lt (hbelow below h))
  case lower_even =>
    intro below h hsame
    exact absurd (Nat.cast_injective (hunits ▸ hsame)) (Nat.ne_of_lt (hbelow below h))
  case upper => exact hunits ▸ Nat.cast_le.mpr (Nat.le_of_lt habove)
  case upper_even =>
    intro hsame
    exact absurd (Nat.cast_injective (hunits ▸ hsame)) (Nat.ne_of_lt habove)

end Binary64

/-! ## The search -/

/-- What is found on a grid is a point of the window. -/
theorem Window.exists_of_onGrid {tie : Tie} {place : Nat} {d : Decimal}
    (h : w.onGrid tie place = some d) :
    ∃ c : Nat, w.holds (c * 10 ^ place) = true ∧ d = ⟨c, place - w.places⟩ := by
  simp only [Window.onGrid] at h
  split at h
  · rename_i hupper
    exact ⟨_, (Bool.and_eq_true_iff.mp hupper).1, (Option.some.inj h).symm⟩
  · split at h
    · rename_i hlower
      exact ⟨_, hlower, (Option.some.inj h).symm⟩
    · cases h

/-- What is found at all is one as well. -/
theorem Window.exists_of_search {tie : Tie} {d : Decimal} (h : w.search tie = some d) :
    ∃ c place : Nat, w.holds (c * 10 ^ place) = true ∧ d = ⟨c, place - w.places⟩ := by
  obtain ⟨n, -, hgrid⟩ := List.exists_of_findSome?_eq_some h
  obtain ⟨c, hc⟩ := Window.exists_of_onGrid hgrid
  exact ⟨c, _, hc⟩

namespace Binary64

variable {x : Binary64}

/-- The exact value as a decimal stands for all units of a number. -/
theorem toRat_exact (x : Binary64) : x.exact.toRat * unitsPerOne = x.units := by
  have hbases (bias : Nat) : (5 : ℚ) ^ bias * (10 ^ bias)⁻¹ * 2 ^ bias = 1 := by
    have hten : (5 : ℚ) ^ bias * 2 ^ bias = 10 ^ bias := by
      rw [← mul_pow]
      norm_num
    rw [mul_right_comm, hten]
    exact mul_inv_cancel₀ (pow_ne_zero _ (by decide))
  have hexponent : (10 : ℚ) ^ x.exact.exponent = (10 ^ 1074)⁻¹ := zpow_neg_coe_of_pos _ (by decide)
  rw [Decimal.toRat, hexponent, cast_unitsPerOne]
  simp only [exact, Nat.cast_mul, Nat.cast_pow, Nat.cast_ofNat]
  rw [mul_assoc, mul_assoc, ← mul_assoc (5 ^ 1074 : ℚ), hbases, mul_one]

/-- **The shortest decimal rounds to the number**, whatever the tie rule is. -/
theorem roundsTo_shortest (x : Binary64) (tie : Tie) :
    RoundsTo ((x.shortest tie).toRat * unitsPerOne) x.magnitude := by
  rw [shortest, Decimal.toRat_trim]
  cases hsearch : x.window.search tie with
  | some d =>
      obtain ⟨c, place, hholds, rfl⟩ := Window.exists_of_search hsearch
      rw [Option.getD_some, toRat_point]
      exact roundsTo_of_holds hholds
  | none =>
      rw [Option.getD_none, toRat_exact]
      exact roundsTo_units x

/-- **The shortest decimal of a number is read as that number**, the sign left out. -/
theorem ofRat_shortest (hfinite : x.isFinite = true) (tie : Tie) :
    ofRat (x.shortest tie).toRat = { x with negative := false } := by
  have hsame : { x with negative := false }.isFinite = true := hfinite
  rw [ofRat_eq_iff (Decimal.toRat_nonneg _) rfl hsame]
  exact roundsTo_shortest x tie

/-- Zero is read as zero. -/
theorem ofRat_zero : ofRat 0 = ⟨false, 0, by decide⟩ := by
  refine (ofRat_eq_iff (le_refl 0) rfl rfl).mpr ?_
  rw [zero_mul]
  constructor
  case lower => exact nofun
  case lower_even => exact nofun
  case upper =>
    rw [mul_zero]
    exact Nat.cast_nonneg _
  case upper_even => exact fun _ => rfl

end Binary64

end LoxLexer
