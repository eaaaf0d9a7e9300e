import LoxLexer.Proofs.ShortestDecimal

/-!
# The search finds the shortest decimal

A window holds exactly the points that round to its number (`holds_iff`), and on each grid the
search looks at the two points next to the number. That is enough. A decimal that rounds to the
number and is not between these two has one of them between itself and the number, and this one
rounds to the number as well (`RoundsTo.between`), so the grid has a hit that is no farther away
(`exists_onGrid_of_roundsTo`).

The `k`-th grid gives the number `k` digits, and no decimal of `k` digits lies between the two
points next to the number there (`side_of_coefficient_lt`): it is a point of the grid, or it is so
small that it has fewer digits in front of the shifted point than the number. So the search stops at
the `k`-th grid at the latest if some decimal of `k` digits rounds to the number, and what it finds
is then no farther from the number than any such decimal (`shortest_le_of_roundsTo`).
-/

set_option autoImplicit false

namespace LoxLexer

/-! ## Decimals -/

/-- A decimal of as great a coefficient and exponent is as great. -/
theorem Decimal.toRat_mono {c c' : Nat} {e e' : ℤ} (hc : c ≤ c') (he : e ≤ e') :
    Decimal.toRat ⟨c, e⟩ ≤ Decimal.toRat ⟨c', e'⟩ := by
  apply mul_le_mul
  · exact Nat.cast_le.mpr hc
  · exact zpow_le_zpow_right₀ (by decide) he
  · exact zpow_nonneg (by decide) _
  · exact Nat.cast_nonneg _

/-- Digits may be taken from the exponent. -/
theorem Decimal.toRat_shift (c j : Nat) (e : ℤ) :
    Decimal.toRat ⟨c * 10 ^ j, e⟩ = Decimal.toRat ⟨c, e + j⟩ := by
  rw [toRat, toRat, zpow_add₀ (by decide), zpow_natCast]
  push_cast
  ring

theorem Decimal.trim_coefficient_le (d : Decimal) : d.trim.coefficient ≤ d.coefficient := by
  fun_induction Decimal.trim d with
  | case1 d h ih => exact ih.trans (Nat.div_le_self _ _)
  | case2 d h => exact Nat.le_refl _

/-- **No zero is left at the end**, unless the decimal is zero. -/
theorem Decimal.trim_coefficient_mod_ten {d : Decimal} (hpos : 0 < d.coefficient) :
    d.trim.coefficient % 10 ≠ 0 := by
  fun_induction Decimal.trim d with
  | case1 d h ih =>
      apply ih
      dsimp only
      omega
  | case2 d h => exact fun hzero => h ⟨hzero, hpos⟩

/-- If one is added to the greatest coefficient of `k` digits, then no more digits are left. -/
theorem Decimal.trim_coefficient_lt {d : Decimal} {k : Nat} (hk : 0 < k)
    (hle : d.coefficient ≤ 10 ^ k) : d.trim.coefficient < 10 ^ k := by
  rcases Nat.lt_or_eq_of_le hle with hless | hpower
  · exact Nat.lt_of_le_of_lt d.trim_coefficient_le hless
  · have hpow : 10 ^ k = 10 ^ (k - 1) * 10 := by
      rw [← Nat.pow_succ, Nat.succ_eq_add_one, Nat.sub_add_cancel hk]
    have hpos : 0 < 10 ^ (k - 1) := Nat.pow_pos (by decide)
    have hzero : d.coefficient % 10 = 0 ∧ 0 < d.coefficient := by omega
    rw [Decimal.trim, if_pos hzero]
    have hrest := Decimal.trim_coefficient_le ⟨d.coefficient / 10, d.exponent + 1⟩
    dsimp only at hrest
    omega

/-- What is found first in a range is found nowhere before. -/
theorem exists_of_findSome?_range {α : Type} {f : Nat → Option α} {a : α} {n : Nat}
    (h : (List.range n).findSome? f = some a) : ∃ k < n, f k = some a ∧ ∀ j < k, f j = none := by
  induction n with
  | zero => cases h
  | succ n ih =>
      rw [List.range_succ, List.findSome?_append] at h
      cases hbefore : (List.range n).findSome? f with
      | some b =>
          rw [hbefore] at h
          obtain ⟨k, hk, hfirst⟩ := ih (hbefore.trans h)
          exact ⟨k, Nat.lt_succ_of_lt hk, hfirst⟩
      | none =>
          rw [hbefore, List.findSome?_singleton] at h
          refine ⟨n, Nat.lt_succ_self n, h, ?_⟩
          intro j hj
          exact List.findSome?_eq_none_iff.mp hbefore j (List.mem_range.mpr hj)

namespace Binary64

variable {x : Binary64} {q q' r : ℚ} {m point place k : Nat} {tie : Tie} {d : Decimal}

/-! ## What a window holds -/

/-- What lies between two fractions that go to a magnitude goes to it too. -/
theorem RoundsTo.between (hq : RoundsTo q m) (hq' : RoundsTo q' m) (hle : q ≤ r) (hle' : r ≤ q') :
    RoundsTo r m := by
  constructor
  case lower =>
    intro below hbelow
    have hlower := hq.lower below hbelow
    linarith
  case lower_even =>
    intro below hbelow hsame
    have hlower := hq.lower below hbelow
    exact hq.lower_even below hbelow (by linarith)
  case upper =>
    have hupper := hq'.upper
    linarith
  case upper_even =>
    intro hsame
    have hupper := hq'.upper
    exact hq'.upper_even (by linarith)

/-- Zero goes to no other number. -/
theorem not_roundsTo_zero (hpos : 0 < m) : ¬ RoundsTo 0 m := by
  intro h
  obtain ⟨below, rfl⟩ := Nat.exists_eq_add_one_of_ne_zero (Nat.ne_of_gt hpos)
  have hlower := h.lower below rfl
  have hmidpoint : 0 < midpoint below := by
    rw [midpoint_eq]
    exact Nat.add_pos_right _ (Nat.two_pow_pos _)
  have hcast : (0 : ℚ) < midpoint below := Nat.cast_pos.mpr hmidpoint
  linarith

/-- **A window holds the points that round to its number**, which is not zero. -/
theorem holds_iff (hpos : 0 < x.magnitude) :
    x.window.holds point = true ↔ RoundsTo (x.pointUnits point) x.magnitude := by
  constructor
  · exact roundsTo_of_holds
  · intro h
    obtain ⟨c, hc, hpoint, hupper, hlower⟩ := exists_window_scale x point
    obtain ⟨below, hbelow⟩ := Nat.exists_eq_add_one_of_ne_zero (Nat.ne_of_gt hpos)
    have hclosed (heven : x.magnitude % 2 = 0) : x.window.closed = true := by
      rw [magnitude_mod_two] at heven
      exact beq_iff_eq.mpr heven
    have hlow : x.window.lower ≤ point * x.window.scale ∧
        (x.window.lower = point * x.window.scale → x.window.closed = true) := by
      constructor
      · have hle := mul_le_mul_of_nonneg_right (h.lower below hbelow) hc.le
        rw [← hlower below hbelow, ← hpoint] at hle
        exact Nat.cast_le.mp hle
      · intro hedge
        apply hclosed
        apply h.lower_even below hbelow
        apply mul_right_cancel₀ hc.ne'
        rw [← hlower below hbelow, ← hpoint, hedge]
    have hhigh : point * x.window.scale ≤ x.window.upper ∧
        (point * x.window.scale = x.window.upper → x.window.closed = true) := by
      constructor
      · have hle := mul_le_mul_of_nonneg_right h.upper hc.le
        rw [← hupper, ← hpoint] at hle
        exact Nat.cast_le.mp hle
      · intro hedge
        apply hclosed
        apply h.upper_even
        apply mul_right_cancel₀ hc.ne'
        rw [← hupper, ← hpoint, hedge]
    simp only [Window.holds, Bool.or_eq_true, Bool.and_eq_true, decide_eq_true_eq, beq_iff_eq]
    by_cases hedge : x.window.lower = point * x.window.scale ∨
        point * x.window.scale = x.window.upper
    · refine Or.inr ⟨?_, ?_⟩
      · rcases hedge with hfirst | hlast
        · exact hlow.2 hfirst
        · exact hhigh.2 hlast
      · omega
    · omega

/-! ## Points and the number

Points of a window and its number are counted in one scale. -/

/-- By how much the counts of a window are greater than units. -/
def perUnit (x : Binary64) : ℚ := 4 * x.quarter / 2 ^ x.shift

theorem perUnit_pos (x : Binary64) : 0 < x.perUnit := by
  have hquarter : (0 : ℚ) < x.quarter := Nat.cast_pos.mpr x.quarter_pos
  unfold perUnit
  apply div_pos
  · exact mul_pos (by decide) hquarter
  · exact pow_pos (by decide) _

theorem cast_point (x : Binary64) (point : Nat) :
    ((point * x.window.scale : Nat) : ℚ) = x.pointUnits point * x.perUnit := by
  have hscaled := scale_mul_two_pow_shift x point
  rw [perUnit, mul_div_assoc', eq_div_iff (by positivity), hscaled]
  ring

theorem cast_value (x : Binary64) : (x.window.value : ℚ) = x.units * x.perUnit := by
  have hvalue : x.window.value = 4 * x.significand * x.quarter := rfl
  have hunits : x.units = x.significand * 2 ^ x.shift := rfl
  rw [perUnit, mul_div_assoc', eq_div_iff (by positivity), hvalue, hunits]
  push_cast
  ring

theorem point_le_iff : point * x.window.scale ≤ m * x.window.value ↔
    x.pointUnits point ≤ m * x.units := by
  rw [← Nat.cast_le (α := ℚ), cast_point, Nat.cast_mul, cast_value, ← mul_assoc]
  exact mul_le_mul_iff_left₀ x.perUnit_pos

theorem le_point_iff : m * x.window.value ≤ point * x.window.scale ↔
    m * x.units ≤ x.pointUnits point := by
  rw [← Nat.cast_le (α := ℚ), cast_point, Nat.cast_mul, cast_value, ← mul_assoc]
  exact mul_le_mul_iff_left₀ x.perUnit_pos

theorem pointUnits_add (x : Binary64) (point point' : Nat) :
    x.pointUnits (point + point') = x.pointUnits point + x.pointUnits point' := by
  unfold pointUnits
  rw [Nat.cast_add]
  ring

/-! ## One grid -/

/-- The number of steps of a grid up to the number. -/
def steps (x : Binary64) (place : Nat) : Nat := x.window.value / (x.window.scale * 10 ^ place)

theorem scale_pos (x : Binary64) : 0 < x.window.scale :=
  Nat.mul_pos (by decide) (Nat.two_pow_pos _)

/-- The number lies between two points of a grid. -/
theorem steps_bounds (x : Binary64) (place : Nat) :
    x.pointUnits (x.steps place * 10 ^ place) ≤ x.units ∧
      (x.units : ℚ) < x.pointUnits ((x.steps place + 1) * 10 ^ place) := by
  have hstep : 0 < x.window.scale * 10 ^ place := Nat.mul_pos x.scale_pos (Nat.pow_pos (by decide))
  have hscaled (n : Nat) : n * 10 ^ place * x.window.scale = n * (x.window.scale * 10 ^ place) := by
    rw [Nat.mul_assoc, Nat.mul_comm (10 ^ place)]
  have hbelow : x.steps place * 10 ^ place * x.window.scale ≤ 1 * x.window.value := by
    rw [hscaled, Nat.one_mul]
    exact Nat.div_mul_le_self _ _
  have habove : ¬ (x.steps place + 1) * 10 ^ place * x.window.scale ≤ 1 * x.window.value := by
    rw [hscaled, Nat.one_mul, Nat.not_le]
    exact (Nat.div_lt_iff_lt_mul hstep).mp (Nat.lt_succ_self _)
  rw [point_le_iff, Nat.cast_one, one_mul] at hbelow habove
  exact ⟨hbelow, not_le.mp habove⟩

/-- On a grid the two points next to the number are looked at. -/
theorem onGrid_eq (x : Binary64) (tie : Tie) (place : Nat) :
    x.window.onGrid tie place =
      if x.window.holds ((x.steps place + 1) * 10 ^ place) &&
          (!x.window.holds (x.steps place * 10 ^ place) ||
            x.window.prefersUpper tie (10 ^ place) (x.steps place)) then
        some ⟨x.steps place + 1, place - x.window.places⟩
      else if x.window.holds (x.steps place * 10 ^ place) then
        some ⟨x.steps place, place - x.window.places⟩
      else none := rfl

/-- The one that is preferred is no farther away. -/
theorem abs_sub_le_of_prefersUpper (x : Binary64) (tie : Tie) (place : Nat) :
    (x.window.prefersUpper tie (10 ^ place) (x.steps place) = true →
      |x.pointUnits ((x.steps place + 1) * 10 ^ place) - x.units| ≤
        |x.pointUnits (x.steps place * 10 ^ place) - x.units|) ∧
    (x.window.prefersUpper tie (10 ^ place) (x.steps place) = false →
      |x.pointUnits (x.steps place * 10 ^ place) - x.units| ≤
        |x.pointUnits ((x.steps place + 1) * 10 ^ place) - x.units|) := by
  obtain ⟨hbelow, habove⟩ := x.steps_bounds place
  have hsum : (2 * x.steps place + 1) * 10 ^ place =
      x.steps place * 10 ^ place + (x.steps place + 1) * 10 ^ place := by
    rw [← Nat.add_mul]
    congr 1
    omega
  -- the middle that is compared is the sum of the two points, and so twice the point halfway
  have hle : (2 * x.steps place + 1) * 10 ^ place * x.window.scale ≤ 2 * x.window.value →
      x.pointUnits ((2 * x.steps place + 1) * 10 ^ place) ≤ (2 : Nat) * x.units := point_le_iff.mp
  have hge : 2 * x.window.value ≤ (2 * x.steps place + 1) * 10 ^ place * x.window.scale →
      (2 : Nat) * x.units ≤ x.pointUnits ((2 * x.steps place + 1) * 10 ^ place) := le_point_iff.mp
  rw [hsum, pointUnits_add, ← hsum, Nat.cast_ofNat] at hle hge
  rw [abs_of_nonneg (by linarith), abs_of_nonpos (by linarith)]
  constructor
  · intro h
    have hmiddle : (2 * x.steps place + 1) * 10 ^ place * x.window.scale ≤ 2 * x.window.value := by
      rcases of_decide_eq_true h with hless | ⟨hsame, -⟩
      · exact Nat.le_of_lt hless
      · exact Nat.le_of_eq hsame
    have hunits := hle hmiddle
    linarith
  · intro h
    have hmiddle : 2 * x.window.value ≤ (2 * x.steps place + 1) * 10 ^ place * x.window.scale :=
      Nat.not_lt.mp fun hless => of_decide_eq_false h (Or.inl hless)
    have hunits := hge hmiddle
    linarith

/-- **A grid has a hit if one of the two points next to the number is held**, and the hit is no
farther away than this one. -/
theorem exists_onGrid_of_holds (tie : Tie) {c : Nat}
    (hnext : c = x.steps place ∨ c = x.steps place + 1)
    (hholds : x.window.holds (c * 10 ^ place) = true) :
    ∃ d, x.window.onGrid tie place = some d ∧
      |d.toRat * unitsPerOne - x.units| ≤ |x.pointUnits (c * 10 ^ place) - x.units| := by
  obtain ⟨hupper, hlower⟩ := abs_sub_le_of_prefersUpper x tie place
  rw [onGrid_eq]
  split
  · rename_i htaken
    refine ⟨_, rfl, ?_⟩
    rw [toRat_point]
    rcases hnext with rfl | rfl
    · apply hupper
      simpa [hholds] using (Bool.and_eq_true_iff.mp htaken).2
    · exact le_refl _
  · rename_i htaken
    rcases hnext with rfl | rfl
    · rw [if_pos hholds]
      refine ⟨_, rfl, ?_⟩
      rw [toRat_point]
    · rw [hholds, Bool.true_and, Bool.or_eq_true, not_or, Bool.not_eq_true', Bool.not_eq_false,
        Bool.not_eq_true] at htaken
      rw [if_pos htaken.1]
      refine ⟨_, rfl, ?_⟩
      rw [toRat_point]
      exact hlower htaken.2

/-- **A grid has a hit if something on the other side of one of its two points rounds to the
number**, and the hit is no farther away. -/
theorem exists_onGrid_of_roundsTo (tie : Tie) (hpos : 0 < x.magnitude)
    (hq : RoundsTo q x.magnitude)
    (hside : q ≤ x.pointUnits (x.steps place * 10 ^ place) ∨
      x.pointUnits ((x.steps place + 1) * 10 ^ place) ≤ q) :
    ∃ d, x.window.onGrid tie place = some d ∧
      |d.toRat * unitsPerOne - x.units| ≤ |q - x.units| := by
  obtain ⟨hbelow, habove⟩ := x.steps_bounds place
  have hself := roundsTo_units x
  rcases hside with hunder | hover
  · have hholds := (holds_iff hpos).mpr (hq.between hself hunder hbelow)
    obtain ⟨d, hd, hdistance⟩ := exists_onGrid_of_holds tie (Or.inl rfl) hholds
    refine ⟨d, hd, hdistance.trans ?_⟩
    rw [abs_of_nonpos (by linarith), abs_of_nonpos (by linarith)]
    linarith
  · have hholds := (holds_iff hpos).mpr (hself.between hq habove.le hover)
    obtain ⟨d, hd, hdistance⟩ := exists_onGrid_of_holds tie (Or.inr rfl) hholds
    refine ⟨d, hd, hdistance.trans ?_⟩
    rw [abs_of_nonneg (by linarith), abs_of_nonneg (by linarith)]
    linarith

/-- A hit is one of the two points. -/
theorem coefficient_of_onGrid (h : x.window.onGrid tie place = some d) :
    d.coefficient ≤ x.steps place + 1 := by
  rw [onGrid_eq] at h
  split at h
  · cases h
    exact Nat.le_refl _
  · split at h
    · cases h
      exact Nat.le_succ _
    · cases h

/-! ## From one digit to all of them -/

/-- A point is no more than a quarter of the gap. -/
theorem scale_le_quarter (x : Binary64) : x.window.scale ≤ x.quarter := by
  have hscale : x.window.scale = 4 * 2 ^ (1074 - x.shift) := rfl
  have hquarter : x.quarter = 2 ^ (x.shift - 1074) * 10 ^ (20 + (1074 - x.shift) / 3) := rfl
  rw [hscale, hquarter]
  generalize 1074 - x.shift = places
  calc
    4 * 2 ^ places
      ≤ 4 * 2 ^ (3 * (places / 3) + 2) := by
        apply Nat.mul_le_mul_left
        apply Nat.pow_le_pow_right (by decide)
        omega
    _ = 16 * 8 ^ (places / 3) := by
        have height : 2 ^ 3 = 8 := rfl
        rw [Nat.pow_add, Nat.pow_mul, height]
        omega
    _ ≤ 10 ^ 20 * 10 ^ (places / 3) := by
        apply Nat.mul_le_mul (by decide)
        exact Nat.pow_le_pow_left (by decide) _
    _ = 1 * 10 ^ (20 + places / 3) := by rw [← Nat.pow_add, Nat.one_mul]
    _ ≤ 2 ^ (x.shift - 1074) * 10 ^ (20 + places / 3) := by
        apply Nat.mul_le_mul_right
        exact Nat.two_pow_pos _

theorem significand_pos (hpos : 0 < x.magnitude) : 0 < x.significand := by
  rw [significand, exponentField, fraction]
  split <;> omega

/-- The number is a point or more. -/
theorem steps_zero_pos (hpos : 0 < x.magnitude) : 0 < x.steps 0 := by
  apply Nat.div_pos
  · calc
      x.window.scale * 10 ^ 0
        ≤ 1 * x.quarter := by
          rw [Nat.pow_zero, Nat.mul_one, Nat.one_mul]
          exact x.scale_le_quarter
      _ ≤ 4 * x.significand * x.quarter := by
          apply Nat.mul_le_mul_right
          have := significand_pos hpos
          omega
  · exact Nat.mul_pos x.scale_pos (by decide)

theorem steps_eq_div (x : Binary64) (place : Nat) : x.steps place = x.steps 0 / 10 ^ place := by
  rw [steps, steps, Nat.pow_zero, Nat.mul_one, Nat.div_div_eq_div_mul]

theorem digits_pos (x : Binary64) : 0 < x.window.digits :=
  List.length_pos_of_ne_nil Nat.toDigits_ne_nil

/-- **The `k`-th grid gives the number `k` digits.** -/
theorem steps_digits (hpos : 0 < x.magnitude) (hk : 0 < k) (hle : k ≤ x.window.digits) :
    10 ^ (k - 1) ≤ x.steps (x.window.digits - k) ∧ x.steps (x.window.digits - k) < 10 ^ k := by
  have hdigits : (Nat.toDigits 10 (x.steps 0)).length = x.window.digits := by
    rw [steps, Nat.pow_zero, Nat.mul_one]
    rfl
  obtain ⟨n, hn⟩ : ∃ n, n = x.window.digits := ⟨_, rfl⟩
  rw [← hn] at hdigits hle ⊢
  rw [steps_eq_div]
  constructor
  · have hfirst : 10 ^ (n - 1) ≤ x.steps 0 := by
      by_cases hone : n - 1 = 0
      · rw [hone]
        exact steps_zero_pos hpos
      · apply Nat.not_lt.mp
        rw [← Nat.length_toDigits_le_iff (by decide) (by omega), hdigits]
        omega
    rw [Nat.le_div_iff_mul_le (Nat.pow_pos (by decide)), ← Nat.pow_add]
    have hsum : k - 1 + (n - k) = n - 1 := by omega
    rwa [hsum]
  · have hlast : x.steps 0 < 10 ^ n := by
      rw [← Nat.length_toDigits_le_iff (by decide) (by omega), hdigits]
    rw [Nat.div_lt_iff_lt_mul (Nat.pow_pos (by decide)), ← Nat.pow_add]
    have hsum : k + (n - k) = n := by omega
    rwa [hsum]

/-- On the finest grid the upper point is held. -/
theorem holds_upper_zero (hpos : 0 < x.magnitude) :
    x.window.holds ((x.steps 0 + 1) * 10 ^ 0) = true := by
  have hquarter := x.quarter_pos
  have hscale := x.scale_le_quarter
  have hvalue : x.window.value = 4 * x.significand * x.quarter := rfl
  have hlower : x.window.lower < x.window.value := by
    apply Nat.mul_lt_mul_of_pos_right _ hquarter
    have := significand_pos hpos
    split <;> omega
  have hupper : x.window.upper = x.window.value + 2 * x.quarter := Nat.add_mul _ _ _
  have hdiv := Nat.div_add_mod x.window.value x.window.scale
  have hmod := Nat.mod_lt x.window.value x.scale_pos
  have hpoint : (x.steps 0 + 1) * 10 ^ 0 * x.window.scale =
      x.window.scale * (x.window.value / x.window.scale) + x.window.scale := by
    rw [steps, Nat.pow_zero, Nat.mul_one, Nat.mul_one, Nat.mul_comm]
    rfl
  simp only [Window.holds, Bool.or_eq_true, Bool.and_eq_true, decide_eq_true_eq, hpoint]
  omega

/-! ## The first grid with a hit -/

/-- **The search stops at the first grid with a hit**, and there is one. -/
theorem exists_search (tie : Tie) (hpos : 0 < x.magnitude) : ∃ k d, 0 < k ∧ k ≤ x.window.digits ∧
    x.window.search tie = some d ∧ x.window.onGrid tie (x.window.digits - k) = some d ∧
    ∀ j, 0 < j → j < k → x.window.onGrid tie (x.window.digits - j) = none := by
  obtain ⟨d, hd⟩ : ∃ d, x.window.search tie = some d := by
    apply Option.isSome_iff_exists.mp
    apply List.findSome?_isSome_iff.mpr
    obtain ⟨d, hlast, -⟩ := exists_onGrid_of_holds tie (Or.inr rfl) (holds_upper_zero hpos)
    have hdigits := x.digits_pos
    refine ⟨x.window.digits - 1, List.mem_range.mpr (by omega), ?_⟩
    have hplace : x.window.digits - (x.window.digits - 1 + 1) = 0 := by omega
    rw [hplace, hlast]
    rfl
  obtain ⟨n, hn, hfound, hbefore⟩ := exists_of_findSome?_range hd
  refine ⟨n + 1, d, Nat.succ_pos n, hn, hd, hfound, ?_⟩
  intro j hj hlt
  have hnone := hbefore (j - 1) (by omega)
  rwa [Nat.sub_add_cancel hj] at hnone

/-! ## Decimals of so many digits -/

/-- **No decimal of `k` digits is between the two points of the `k`-th grid.** -/
theorem side_of_coefficient_lt (hpos : 0 < x.magnitude) (hk : 0 < k) (hle : k ≤ x.window.digits)
    (hd : d.coefficient < 10 ^ k) :
    d.toRat * unitsPerOne ≤
        x.pointUnits (x.steps (x.window.digits - k) * 10 ^ (x.window.digits - k)) ∨
      x.pointUnits ((x.steps (x.window.digits - k) + 1) * 10 ^ (x.window.digits - k)) ≤
        d.toRat * unitsPerOne := by
  obtain ⟨hfirst, -⟩ := steps_digits hpos hk hle
  generalize x.window.digits - k = place at hfirst ⊢
  have hunits : (0 : ℚ) ≤ unitsPerOne := Nat.cast_nonneg _
  rw [← toRat_point, ← toRat_point]
  obtain ⟨c, e⟩ := d
  by_cases hgrid : place - x.window.places ≤ e
  · obtain ⟨j, hj⟩ := Int.le.dest hgrid
    rw [← hj, ← Decimal.toRat_shift]
    rcases Nat.lt_or_ge (x.steps place) (c * 10 ^ j) with hover | hunder
    · right
      exact mul_le_mul_of_nonneg_right (Decimal.toRat_mono hover (le_refl _)) hunits
    · left
      exact mul_le_mul_of_nonneg_right (Decimal.toRat_mono hunder (le_refl _)) hunits
  · left
    apply mul_le_mul_of_nonneg_right _ hunits
    have hcoefficient : c ≤ x.steps place * 10 ^ 1 := by
      have hpow : 10 ^ (k - 1) * 10 = 10 ^ k := Nat.pow_pred_mul hk
      dsimp only at hd
      omega
    calc
      Decimal.toRat ⟨c, e⟩
        ≤ Decimal.toRat ⟨x.steps place * 10 ^ 1, e⟩ := Decimal.toRat_mono hcoefficient (le_refl _)
      _ = Decimal.toRat ⟨x.steps place, e + 1⟩ := Decimal.toRat_shift _ _ _
      _ ≤ Decimal.toRat ⟨x.steps place, place - x.window.places⟩ :=
        Decimal.toRat_mono (le_refl _) (by omega)

/-- The shortest decimal of a number is not zero. -/
theorem toRat_shortest_pos (tie : Tie) (hpos : 0 < x.magnitude) : 0 < (x.shortest tie).toRat := by
  apply lt_of_le_of_ne (Decimal.toRat_nonneg _)
  intro hzero
  have hrounds := roundsTo_shortest x tie
  rw [← hzero, zero_mul] at hrounds
  exact not_roundsTo_zero hpos hrounds

/-- And its coefficient does not end in a zero. -/
theorem shortest_mod_ten (tie : Tie) (hpos : 0 < x.magnitude) :
    (x.shortest tie).coefficient % 10 ≠ 0 := by
  apply Decimal.trim_coefficient_mod_ten
  apply Nat.pos_of_ne_zero
  intro hzero
  have hvalue := toRat_shortest_pos tie hpos
  rw [shortest, Decimal.toRat_trim, Decimal.toRat, hzero, Nat.cast_zero, zero_mul] at hvalue
  exact lt_irrefl 0 hvalue

/-- **The shortest decimal is the shortest one**: if a decimal of `k` digits rounds to the number,
then the shortest one has no more digits, and if it has as many, then it is no farther away. -/
theorem shortest_le_of_roundsTo (tie : Tie) (hpos : 0 < x.magnitude)
    (hrounds : RoundsTo (d.toRat * unitsPerOne) x.magnitude) (hd : d.coefficient < 10 ^ k) :
    (x.shortest tie).coefficient < 10 ^ k ∧
      (10 ^ (k - 1) ≤ (x.shortest tie).coefficient →
        |(x.shortest tie).toRat * unitsPerOne - x.units| ≤ |d.toRat * unitsPerOne - x.units|) := by
  obtain ⟨n, found, hn, hdigits, hsearch, hfound, hbefore⟩ := exists_search tie hpos
  have hk : 0 < k := by
    rcases Nat.eq_zero_or_pos k with rfl | hk
    · have hzero : d.coefficient = 0 := Nat.lt_one_iff.mp hd
      rw [Decimal.toRat, hzero, Nat.cast_zero, zero_mul, zero_mul] at hrounds
      exact absurd hrounds (not_roundsTo_zero hpos)
    · exact hk
  -- a grid of so many digits has a hit
  have hgrid (hle : k ≤ x.window.digits) :
      ∃ hit, x.window.onGrid tie (x.window.digits - k) = some hit ∧
        |hit.toRat * unitsPerOne - x.units| ≤ |d.toRat * unitsPerOne - x.units| :=
    exists_onGrid_of_roundsTo tie hpos hrounds (side_of_coefficient_lt hpos hk hle hd)
  have hfirst : n ≤ k := by
    by_contra hlater
    obtain ⟨hit, hsome, -⟩ := hgrid (by omega)
    rw [hbefore k hk (by omega)] at hsome
    cases hsome
  have hcoefficient : (x.shortest tie).coefficient < 10 ^ n := by
    rw [shortest, hsearch, Option.getD_some]
    apply Decimal.trim_coefficient_lt hn
    have hsteps := (steps_digits hpos hn hdigits).2
    exact (coefficient_of_onGrid hfound).trans hsteps
  constructor
  · exact Nat.lt_of_lt_of_le hcoefficient (Nat.pow_le_pow_right (by decide) hfirst)
  · intro hlong
    have hlt : k - 1 < n := (Nat.pow_lt_pow_iff_right (by decide)).mp
      (Nat.lt_of_le_of_lt hlong hcoefficient)
    obtain rfl : k = n := by omega
    obtain ⟨hit, hsome, hdistance⟩ := hgrid hdigits
    rw [hfound] at hsome
    cases hsome
    rwa [shortest, hsearch, Option.getD_some, Decimal.toRat_trim]

/-! ## Whole numbers -/

/-- A multiple of its gap that rounds to a number is the number. -/
theorem eq_significand_of_roundsTo {n : Nat}
    (h : RoundsTo ((n * 2 ^ x.shift : Nat) : ℚ) x.magnitude) : n = x.significand := by
  have hgap : 0 < 2 ^ x.shift := Nat.two_pow_pos _
  have hupper : 4 * n ≤ 4 * x.significand + 2 := by
    have hmidpoint : 2 * (n * 2 ^ x.shift) ≤ midpoint x.magnitude := by exact_mod_cast h.upper
    have hdouble := two_mul_midpoint x
    apply Nat.le_of_mul_le_mul_right _ hgap
    rw [Nat.mul_assoc]
    omega
  have hlower : 4 * x.significand ≤ 4 * n + 2 := by
    rcases Nat.eq_zero_or_pos x.magnitude with hzero | hpos
    · have hsignificand : x.significand = 0 := by
        rw [significand, exponentField, fraction, hzero]
        rfl
      omega
    · obtain ⟨below, hbelow⟩ := Nat.exists_eq_add_one_of_ne_zero (Nat.ne_of_gt hpos)
      have hmidpoint : midpoint below ≤ 2 * (n * 2 ^ x.shift) := by
        exact_mod_cast h.lower below hbelow
      have hdouble := two_mul_midpoint_below hbelow
      have hborder : (4 * x.significand - if x.gapNarrows then 1 else 2) ≤ 4 * n := by
        apply Nat.le_of_mul_le_mul_right _ hgap
        rw [Nat.mul_assoc]
        omega
      split at hborder <;> omega
  omega

/-- **A whole number rounds to a whole number**: where numbers have places behind the point, every
whole number is among them. -/
theorem isIntegral_of_roundsTo {n : Nat} (h : RoundsTo ((n : ℚ) * unitsPerOne) x.magnitude) :
    x.isIntegral = true := by
  apply decide_eq_true
  apply Nat.mod_eq_zero_of_dvd
  rcases Nat.le_total x.shift 1074 with hplaces | hwhole
  · have hone : 2 ^ (1074 - x.shift) * 2 ^ x.shift = unitsPerOne := by
      rw [unitsPerOne, Nat.pow_sub_mul_pow 2 hplaces]
    rw [← Nat.cast_mul, ← hone, ← Nat.mul_assoc] at h
    have hunits : x.units = x.significand * 2 ^ x.shift := rfl
    rw [hunits, ← eq_significand_of_roundsTo h, Nat.mul_assoc, hone]
    exact Nat.dvd_mul_left _ _
  · have hdvd := Nat.pow_dvd_pow 2 hwhole
    rw [unitsPerOne]
    exact Nat.dvd_mul_left_of_dvd hdvd x.significand

/-- So the shortest decimal of any other number has places behind the point. -/
theorem shortest_exponent_neg (tie : Tie) (hfractional : x.isIntegral = false) :
    (x.shortest tie).exponent < 0 := by
  by_contra hwhole
  obtain ⟨e, he⟩ := Int.eq_ofNat_of_zero_le (not_lt.mp hwhole)
  have hvalue : (x.shortest tie).toRat = ((x.shortest tie).coefficient * 10 ^ e : Nat) := by
    rw [Decimal.toRat, he, zpow_natCast, Nat.cast_mul, Nat.cast_pow, Nat.cast_ofNat]
  have hrounds := roundsTo_shortest x tie
  rw [hvalue] at hrounds
  have hintegral := isIntegral_of_roundsTo hrounds
  rw [hfractional] at hintegral
  cases hintegral

end Binary64

end LoxLexer
