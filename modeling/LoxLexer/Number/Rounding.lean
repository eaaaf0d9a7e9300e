import LoxLexer.Number.Binary64

/-!
# Rounding a quotient to binary64

`Binary64.nearest num den` is the binary64 nearest to `num / den`; of two that are equally
near it is the one with the even significand. A quotient too large for the finite numbers
becomes infinity and one too small becomes zero.

All arithmetic is exact. The quotient is scaled to units of `2 ^ (-1074)`, the place of the
last significand bit is read off its leading bit, and one integer division rounds it there.
-/

set_option autoImplicit false

namespace LoxLexer

/-- The natural number nearest to `num / den`, a half going to the even neighbour. -/
def roundHalfEven (num den : Nat) : Nat :=
  let quotient := num / den
  let remainder := num % den
  if 2 * remainder < den ∨ (2 * remainder = den ∧ quotient % 2 = 0) then quotient
  else quotient + 1

namespace Binary64

/-- The place, in bits above the unit, at which a value of `num / den` units has its last
significand bit: 52 places below its leading bit, and never below the unit. -/
def lastPlace (num den : Nat) : Nat := (num / den).log2 - 52

/-- The magnitude of the binary64 nearest to `num / den` units. A significand that rounds up
to `2 ^ 53` carries into the exponent field by the addition itself. -/
def nearestMagnitude (num den : Nat) : Nat :=
  let place := lastPlace num den
  min (place * 2 ^ 52 + roundHalfEven num (den * Nat.pow 2 place)) infiniteMagnitude

theorem nearestMagnitude_le (num den : Nat) : nearestMagnitude num den ≤ infiniteMagnitude :=
  Nat.min_le_right _ _

/-- **The binary64 nearest to `num / den`**, for a positive `den`; ties go to the even
significand. -/
def nearest (num den : Nat) : Binary64 where
  negative := false
  magnitude := nearestMagnitude (num * unitsPerOne) den
  magnitude_lt := Nat.lt_of_le_of_lt (nearestMagnitude_le _ _) (by decide)

end Binary64

end LoxLexer
