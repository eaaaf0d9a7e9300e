import Mathlib.Algebra.Order.Field.Rat
import Mathlib.Tactic.Linarith
import LoxLexer.Number.Rounding

/-!
# Rounding to the nearest, ties to even

The numbers without a sign are counted by their magnitudes, and `unitsOf` says how many units each
of them stands for. Between two neighbours lies a `midpoint`: a fraction goes to the magnitude that
it is separated from by no midpoint, and to the even one of the two if it is a midpoint itself
(`RoundsTo`). No fraction goes to two magnitudes (`RoundsTo.unique`).

`Binary64.nearest` is that rounding (`nearestMagnitude_eq_iff`), and so a fraction, in lowest terms
or not, is read as the finite number that it goes to (`ofRat_eq_iff`).
-/

set_option autoImplicit false

namespace LoxLexer

namespace Binary64

/-! ## The values of magnitudes -/

/-- The units that a magnitude stands for. Those of the least magnitude that is not finite are what
the next number would have, were there more exponents. -/
def unitsOf (magnitude : Nat) : Nat :=
  (if magnitude / 2 ^ 52 = 0 then magnitude % 2 ^ 52 else 2 ^ 52 + magnitude % 2 ^ 52) *
    2 ^ (magnitude / 2 ^ 52 - 1)

theorem units_eq (x : Binary64) : x.units = unitsOf x.magnitude := rfl

/-- Twice what lies halfway between a magnitude and the next one. -/
def midpoint (magnitude : Nat) : Nat := unitsOf magnitude + unitsOf (magnitude + 1)

/-- **A fraction, counted in units, goes to a magnitude**: none is nearer, and if it is as near as
another one, it is even. -/
structure RoundsTo (q : ℚ) (magnitude : Nat) : Prop where
  lower : ∀ below, magnitude = below + 1 → (midpoint below : ℚ) ≤ 2 * q
  lower_even : ∀ below, magnitude = below + 1 → (midpoint below : ℚ) = 2 * q → magnitude % 2 = 0
  upper : 2 * q ≤ midpoint magnitude
  upper_even : 2 * q = midpoint magnitude → magnitude % 2 = 0

variable {m n : Nat} {q : ℚ}

/-- A significand at its place. One that has been carried over is at the next place. -/
theorem unitsOf_significand {place significand : Nat} (hle : significand ≤ 2 ^ 53)
    (hlead : place = 0 ∨ 2 ^ 52 ≤ significand) :
    unitsOf (place * 2 ^ 52 + significand) = significand * 2 ^ place := by
  rcases Nat.lt_or_ge significand (2 ^ 52) with hsmall | hlarge
  · obtain rfl : place = 0 := by omega
    have hexponent : (0 * 2 ^ 52 + significand) / 2 ^ 52 = 0 := by omega
    have hfraction : (0 * 2 ^ 52 + significand) % 2 ^ 52 = significand := by omega
    rw [unitsOf, hexponent, hfraction, if_pos rfl]
  · rcases Nat.lt_or_ge significand (2 ^ 53) with hlt | hge
    · have hexponent : (place * 2 ^ 52 + significand) / 2 ^ 52 = place + 1 := by omega
      have hfraction : 2 ^ 52 + (place * 2 ^ 52 + significand) % 2 ^ 52 = significand := by omega
      rw [unitsOf, hexponent, if_neg (Nat.succ_ne_zero place), hfraction, Nat.add_sub_cancel]
    · obtain rfl : significand = 2 ^ 53 := Nat.le_antisymm hle hge
      have hexponent : (place * 2 ^ 52 + 2 ^ 53) / 2 ^ 52 = place + 2 := by omega
      have hfraction : (place * 2 ^ 52 + 2 ^ 53) % 2 ^ 52 = 0 := by omega
      rw [unitsOf, hexponent, if_neg (Nat.succ_ne_zero _), hfraction,
        show place + 2 - 1 = place + 1 from rfl, Nat.pow_succ 2 place]
      omega

/-- **The gap above a magnitude** is one last place. -/
theorem unitsOf_succ (m : Nat) : unitsOf (m + 1) = unitsOf m + 2 ^ (m / 2 ^ 52 - 1) := by
  -- the significand of `m`, at its place; the next magnitude has the next significand
  have hparts : ∃ place significand, m = place * 2 ^ 52 + significand ∧ significand < 2 ^ 53 ∧
      (place = 0 ∨ 2 ^ 52 ≤ significand) ∧ place = m / 2 ^ 52 - 1 := by
    rcases Nat.eq_zero_or_pos (m / 2 ^ 52) with hzero | hpos
    · exact ⟨0, m, by omega, by omega, Or.inl rfl, by omega⟩
    · exact ⟨m / 2 ^ 52 - 1, 2 ^ 52 + m % 2 ^ 52, by omega, by omega, Or.inr (by omega), rfl⟩
  obtain ⟨place, significand, hm, hlt, hlead, hplace⟩ := hparts
  have hnext : m + 1 = place * 2 ^ 52 + (significand + 1) := by omega
  rw [← hplace, hnext, unitsOf_significand (by omega) (by omega), hm,
    unitsOf_significand (by omega) hlead, Nat.succ_mul]

theorem unitsOf_strictMono : StrictMono unitsOf := by
  refine strictMono_nat_of_lt_succ fun m => ?_
  rw [unitsOf_succ]
  exact Nat.lt_add_of_pos_right (Nat.two_pow_pos _)

/-- A midpoint is half a gap above one magnitude. -/
theorem midpoint_eq (m : Nat) : midpoint m = 2 * unitsOf m + 2 ^ (m / 2 ^ 52 - 1) := by
  rw [midpoint, unitsOf_succ]
  omega

/-- It is half the same gap below the next one. -/
theorem midpoint_add_gap (m : Nat) : midpoint m + 2 ^ (m / 2 ^ 52 - 1) = 2 * unitsOf (m + 1) := by
  rw [midpoint, unitsOf_succ]
  omega

theorem midpoint_strictMono : StrictMono midpoint := fun _ _ hlt =>
  Nat.add_lt_add (unitsOf_strictMono hlt) (unitsOf_strictMono (Nat.succ_lt_succ hlt))

/-! ## A fraction goes to one magnitude only -/

theorem RoundsTo.not_lt (hm : RoundsTo q m) (hn : RoundsTo q n) : ¬ m < n := by
  intro hlt
  obtain ⟨below, rfl⟩ := Nat.exists_eq_add_one_of_ne_zero (Nat.ne_of_gt (Nat.zero_lt_of_lt hlt))
  have hmono : (midpoint m : ℚ) ≤ midpoint below :=
    Nat.cast_le.mpr (midpoint_strictMono.monotone (Nat.le_of_lt_succ hlt))
  have hupper := hm.upper
  have hlower := hn.lower below rfl
  -- no midpoint is left between the two, so they are neighbours and both of them are even
  have hsame : m = below := by
    have hmidpoint : (midpoint m : ℚ) = midpoint below := by linarith
    exact midpoint_strictMono.injective (Nat.cast_injective hmidpoint)
  subst hsame
  have heven := hm.upper_even (by linarith)
  have heven' := hn.lower_even m rfl (by linarith)
  omega

/-- **A fraction goes to one magnitude only.** -/
theorem RoundsTo.unique (hm : RoundsTo q m) (hn : RoundsTo q n) : m = n :=
  Nat.le_antisymm (Nat.not_lt.mp (hn.not_lt hm)) (Nat.not_lt.mp (hm.not_lt hn))

/-- **No magnitude is nearer** than the one that a fraction goes to. -/
theorem RoundsTo.abs_sub_le (h : RoundsTo q m) (n : Nat) :
    |q - unitsOf m| ≤ |q - unitsOf n| := by
  have hmidpoint (k : Nat) : (midpoint k : ℚ) = unitsOf k + unitsOf (k + 1) := Nat.cast_add _ _
  rcases Nat.lt_trichotomy n m with hlt | rfl | hgt
  · obtain ⟨below, rfl⟩ := Nat.exists_eq_add_one_of_ne_zero (Nat.ne_of_gt (Nat.zero_lt_of_lt hlt))
    have hunits : (unitsOf n : ℚ) ≤ unitsOf below :=
      Nat.cast_le.mpr (unitsOf_strictMono.monotone (Nat.le_of_lt_succ hlt))
    have hstep : (unitsOf below : ℚ) ≤ unitsOf (below + 1) :=
      Nat.cast_le.mpr (unitsOf_strictMono.monotone (Nat.le_succ below))
    have hlower := h.lower below rfl
    rw [hmidpoint] at hlower
    refine (abs_le.mpr ⟨?_, ?_⟩).trans (le_abs_self _) <;> linarith
  · exact le_refl _
  · have hunits : (unitsOf (m + 1) : ℚ) ≤ unitsOf n :=
      Nat.cast_le.mpr (unitsOf_strictMono.monotone hgt)
    have hstep : (unitsOf m : ℚ) ≤ unitsOf (m + 1) :=
      Nat.cast_le.mpr (unitsOf_strictMono.monotone (Nat.le_succ m))
    have hupper := h.upper
    rw [hmidpoint] at hupper
    refine (abs_le.mpr ⟨?_, ?_⟩).trans (neg_le_abs _) <;> linarith

/-! ## Rounding a quotient -/

variable {num den : Nat}

/-- Rounding to a whole number goes no further than half a step, and that far to even ones only. -/
theorem roundHalfEven_bounds {r : Nat} (hden : 0 < den) (hr : r = roundHalfEven num den) :
    (2 * (r * den) ≤ 2 * num + den ∧ (2 * (r * den) = 2 * num + den → r % 2 = 0)) ∧
      (2 * num ≤ 2 * (r * den) + den ∧ (2 * num = 2 * (r * den) + den → r % 2 = 0)) := by
  have hsplit : den * (num / den) + num % den = num := Nat.div_add_mod num den
  have hlt : num % den < den := Nat.mod_lt num hden
  rw [roundHalfEven] at hr
  split at hr
  · have hproduct : r * den = den * (num / den) := by rw [hr, Nat.mul_comm]
    omega
  · have hproduct : r * den = den * (num / den) + den := by rw [hr, Nat.succ_mul, Nat.mul_comm]
    omega

/-- The leading bit of a quotient, from its last place. -/
theorem lastPlace_bounds (num : Nat) (hden : 0 < den) :
    num < 2 ^ 53 * (den * 2 ^ lastPlace num den) ∧
      (0 < lastPlace num den → 2 ^ 52 * (den * 2 ^ lastPlace num den) ≤ num) := by
  have hbits (k : Nat) : 2 ^ k * (den * 2 ^ lastPlace num den) =
      2 ^ (k + lastPlace num den) * den := by
    rw [Nat.pow_add, Nat.mul_comm den, Nat.mul_assoc]
  rw [hbits, hbits, ← Nat.div_lt_iff_lt_mul hden, ← Nat.le_div_iff_mul_le hden]
  constructor
  · have hlog : num / den < 2 ^ ((num / den).log2 + 1) := Nat.lt_log2_self
    refine Nat.lt_of_lt_of_le hlog (Nat.pow_le_pow_right (by decide) ?_)
    rw [lastPlace]
    omega
  · intro hpos
    have hne : num / den ≠ 0 := by
      intro hzero
      rw [lastPlace, hzero] at hpos
      exact absurd hpos (by decide)
    have hplace : 52 + lastPlace num den = (num / den).log2 := by
      rw [lastPlace] at hpos ⊢
      omega
    rw [hplace]
    exact Nat.log2_self_le hne

/-- What `RoundsTo` says of a quotient, without fractions. -/
theorem roundsTo_div (hden : 0 < den)
    (lower : ∀ below, m = below + 1 → midpoint below * den ≤ 2 * num ∧
      (midpoint below * den = 2 * num → m % 2 = 0))
    (upper : 2 * num ≤ midpoint m * den ∧ (2 * num = midpoint m * den → m % 2 = 0)) :
    RoundsTo ((num : ℚ) / den) m := by
  have hpos : (0 : ℚ) < den := Nat.cast_pos.mpr hden
  have hdouble : 2 * ((num : ℚ) / den) = ((2 * num : Nat) : ℚ) / den := by
    rw [Nat.cast_mul, mul_div_assoc, Nat.cast_ofNat]
  constructor
  · intro below hbelow
    rw [hdouble, le_div_iff₀ hpos]
    exact_mod_cast (lower below hbelow).1
  · intro below hbelow heq
    rw [hdouble, eq_div_iff hpos.ne'] at heq
    exact (lower below hbelow).2 (by exact_mod_cast heq)
  · rw [hdouble, div_le_iff₀ hpos]
    exact_mod_cast upper.1
  · intro heq
    rw [hdouble, div_eq_iff hpos.ne'] at heq
    exact upper.2 (by exact_mod_cast heq)

/-- A quotient of 53 bits is rounded to `2 ^ 53` at most. -/
theorem roundHalfEven_le {r step : Nat} (hstep : 0 < step) (hr : r = roundHalfEven num step)
    (h : num < 2 ^ 53 * step) : r ≤ 2 ^ 53 := by
  obtain ⟨⟨hlow, -⟩, -⟩ := roundHalfEven_bounds hstep hr
  refine Nat.not_lt.mp fun hlt => ?_
  have hmore := Nat.mul_le_mul_right step (Nat.succ_le_of_lt hlt)
  omega

/-- One with the leading bit is rounded to `2 ^ 52` at least. -/
theorem le_roundHalfEven {r step : Nat} (hstep : 0 < step) (hr : r = roundHalfEven num step)
    (h : 2 ^ 52 * step ≤ num) : 2 ^ 52 ≤ r := by
  obtain ⟨-, hhigh, -⟩ := roundHalfEven_bounds hstep hr
  refine Nat.not_lt.mp fun hlt => ?_
  have hless := Nat.mul_le_mul_right step (Nat.succ_le_of_lt hlt)
  rw [Nat.succ_mul] at hless
  omega

/-- **A quotient is rounded at its last place**: the magnitude is that of the significand that it is
rounded to. -/
theorem roundsTo_place (num : Nat) (hden : 0 < den) :
    RoundsTo ((num : ℚ) / den) (lastPlace num den * 2 ^ 52 +
      roundHalfEven num (den * 2 ^ lastPlace num den)) := by
  obtain ⟨hfew, hmany⟩ := lastPlace_bounds num hden
  generalize lastPlace num den = place at hfew hmany ⊢
  obtain ⟨step, hstep⟩ : ∃ step, step = den * 2 ^ place := ⟨_, rfl⟩
  rw [← hstep] at hfew hmany ⊢
  have hpos : 0 < step := hstep ▸ Nat.mul_pos hden (Nat.two_pow_pos place)
  obtain ⟨r, hr⟩ : ∃ r, r = roundHalfEven num step := ⟨_, rfl⟩
  obtain ⟨⟨hlow, hlowEven⟩, hhigh, hhighEven⟩ := roundHalfEven_bounds hpos hr
  have hle : r ≤ 2 ^ 53 := roundHalfEven_le hpos hr hfew
  have hlead : place = 0 ∨ 2 ^ 52 ≤ r := or_iff_not_imp_left.mpr fun hplace =>
    le_roundHalfEven hpos hr (hmany (Nat.pos_of_ne_zero hplace))
  obtain ⟨m, hm⟩ : ∃ m, m = place * 2 ^ 52 + r := ⟨_, rfl⟩
  rw [← hr, ← hm]
  have hunits : unitsOf m * den = r * step := by
    rw [hm, unitsOf_significand hle hlead, hstep, Nat.mul_assoc, Nat.mul_comm den]
  have heven : r % 2 = 0 → m % 2 = 0 := by omega
  -- gaps from the last place on are no less than a step
  have hgap (k : Nat) (hk : place ≤ k / 2 ^ 52 - 1) : step ≤ 2 ^ (k / 2 ^ 52 - 1) * den := by
    rw [hstep, Nat.mul_comm den]
    exact Nat.mul_le_mul_right den (Nat.pow_le_pow_right (by decide) hk)
  refine roundsTo_div hden ?_ ?_
  · intro below hbelow
    have hmidpoint : midpoint below * den + 2 ^ (below / 2 ^ 52 - 1) * den = 2 * (r * step) := by
      rw [← Nat.add_mul, midpoint_add_gap, ← hbelow, Nat.mul_assoc, hunits]
    by_cases hinner : place = 0 ∨ 2 ^ 52 < r
    · have := hgap below (by omega)
      constructor
      · omega
      · intro heq
        exact heven (hlowEven (by omega))
    · -- at a power of two the gap below is half a step, but nothing was rounded up there
      have hbit := hmany (by omega)
      have hpower : r = 2 ^ 52 := by omega
      have hgapPos : 0 < 2 ^ (below / 2 ^ 52 - 1) * den := Nat.mul_pos (Nat.two_pow_pos _) hden
      rw [hpower] at hmidpoint
      omega
  · have hmidpoint : midpoint m * den = 2 * (r * step) + 2 ^ (m / 2 ^ 52 - 1) * den := by
      rw [midpoint_eq, Nat.add_mul, Nat.mul_assoc, hunits]
    have := hgap m (by omega)
    rw [hmidpoint]
    constructor
    · omega
    · intro heq
      exact heven (hhighEven (by omega))

/-! ## Reading a fraction -/

/-- **Rounding goes where the quotient goes**, to the magnitude of a finite number. -/
theorem nearestMagnitude_eq_iff (hden : 0 < den) (hfinite : m < infiniteMagnitude) :
    nearestMagnitude num den = m ↔ RoundsTo ((num : ℚ) / den) m := by
  have hplace := roundsTo_place num hden
  have hmagnitude : nearestMagnitude num den =
      min (lastPlace num den * 2 ^ 52 + roundHalfEven num (den * 2 ^ lastPlace num den))
        infiniteMagnitude := rfl
  rw [hmagnitude]
  constructor
  · intro hmin
    have hm : lastPlace num den * 2 ^ 52 + roundHalfEven num (den * 2 ^ lastPlace num den) = m := by
      omega
    rwa [hm] at hplace
  · intro h
    rw [hplace.unique h]
    exact Nat.min_eq_left (Nat.le_of_lt hfinite)

/-- **The binary64 nearest to a fraction** that is not negative. -/
def ofRat (q : ℚ) : Binary64 := nearest q.num.toNat q.den

/-- The numbers of a sign and of a magnitude are one. -/
theorem ext_of_magnitude {x y : Binary64} (hsign : x.negative = y.negative)
    (hmagnitude : x.magnitude = y.magnitude) : x = y := by
  obtain ⟨negative, magnitude, hlt⟩ := x
  cases hsign
  cases hmagnitude
  rfl

/-- **A quotient is rounded to the finite number that it goes to**, and to no other. -/
theorem nearest_eq_iff {x : Binary64} (hden : 0 < den) (hsign : x.negative = false)
    (hfinite : x.isFinite = true) :
    nearest num den = x ↔ RoundsTo ((num : ℚ) / den * unitsPerOne) x.magnitude := by
  have hmagnitude : nearest num den = x ↔
      nearestMagnitude (num * unitsPerOne) den = x.magnitude :=
    ⟨fun h => congrArg magnitude h, fun h => ext_of_magnitude hsign.symm h⟩
  have hfraction : ((num * unitsPerOne : Nat) : ℚ) / den = (num : ℚ) / den * unitsPerOne := by
    rw [Nat.cast_mul, mul_div_right_comm]
  rw [isFinite, decide_eq_true_eq] at hfinite
  rw [hmagnitude, nearestMagnitude_eq_iff hden hfinite, hfraction]

/-- **A fraction is read as the finite number that it goes to**, and as no other. -/
theorem ofRat_eq_iff {x : Binary64} (hq : 0 ≤ q) (hsign : x.negative = false)
    (hfinite : x.isFinite = true) : ofRat q = x ↔ RoundsTo (q * unitsPerOne) x.magnitude := by
  have hnum : ((q.num.toNat : Nat) : ℚ) = q.num := by
    exact_mod_cast Int.toNat_of_nonneg (Rat.num_nonneg.mpr hq)
  rw [ofRat, nearest_eq_iff q.den_pos hsign hfinite, hnum, Rat.num_div_den]

end Binary64

end LoxLexer
