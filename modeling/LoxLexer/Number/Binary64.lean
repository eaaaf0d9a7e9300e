import LoxLexer.Position.Clip

/-!
# Binary64 numbers

The 64-bit binary floating-point numbers of IEEE 754 as data: a sign and a 63-bit magnitude,
which is the exponent field followed by the fraction field. Magnitudes of finite numbers are
ordered as their values are.

Every finite binary64 is a whole multiple of `2 ^ (-1074)`, the least positive one. So the
value of a finite number is kept exactly, without fractions, as a count of these *units*:
`x.units / 2 ^ 1074` is the absolute value of `x`.
-/

set_option autoImplicit false

namespace LoxLexer

/-- A binary64: its sign bit and the 63 bits below it, read as a number. -/
structure Binary64 where
  /-- Whether the sign bit is set. -/
  negative : Bool
  /-- The exponent field times `2 ^ 52`, plus the fraction field. -/
  magnitude : Nat
  magnitude_lt : magnitude < 2 ^ 63
deriving DecidableEq

namespace Binary64

/-! ## The 64-bit word -/

/-- The number whose IEEE 754 word is `bits`. -/
def ofBits (bits : UInt64) : Binary64 where
  negative := decide (2 ^ 63 ≤ bits.toNat)
  magnitude := bits.toNat % 2 ^ 63
  magnitude_lt := Nat.mod_lt _ (by decide)

/-- The IEEE 754 word of a number. -/
def toBits (x : Binary64) : UInt64 :=
  UInt64.ofNat ((if x.negative then 2 ^ 63 else 0) + x.magnitude)

/-- A number keeps its word. -/
theorem toBits_ofBits (bits : UInt64) : (ofBits bits).toBits = bits := by
  apply UInt64.toNat_inj.mp
  have hlt := bits.toNat_lt
  simp only [toBits, ofBits, decide_eq_true_eq, UInt64.toNat_ofNat']
  split <;> omega

/-- A word gives back the number it was made of. -/
theorem ofBits_toBits (x : Binary64) : ofBits x.toBits = x := by
  obtain ⟨negative, magnitude, hlt⟩ := x
  -- sign and magnitude together stay below `2 ^ 64`, so that the word holds them
  have hword : (toBits ⟨negative, magnitude, hlt⟩).toNat =
      (if negative then 2 ^ 63 else 0) + magnitude := by
    simp only [toBits, UInt64.toNat_ofNat']
    split <;> omega
  cases negative <;> simp [ofBits, hword] <;> omega

/-! ## Fields and classes -/

/-- The biased exponent field, from `0` to `2047`. -/
def exponentField (x : Binary64) : Nat := x.magnitude / 2 ^ 52

/-- The fraction field: the 52 low bits. -/
def fraction (x : Binary64) : Nat := x.magnitude % 2 ^ 52

/-- The magnitude of the infinities; the finite numbers lie below it and the NaNs above. -/
def infiniteMagnitude : Nat := 2047 * 2 ^ 52

/-- Whether the number is neither an infinity nor a NaN. -/
def isFinite (x : Binary64) : Bool := decide (x.magnitude < infiniteMagnitude)

/-- Whether the word stands for no number at all. -/
def isNaN (x : Binary64) : Bool := decide (infiniteMagnitude < x.magnitude)

/-- The NaN that stands where a number could not be read. -/
def nan : Binary64 := ⟨false, infiniteMagnitude + 2 ^ 51, by decide⟩

/-- Whether the number is one of the two zeros. -/
def isZero (x : Binary64) : Bool := decide (x.magnitude = 0)

/-! ## The exact value -/

/-- The significand: the fraction, with the hidden bit in front unless the exponent field is
`0`. -/
def significand (x : Binary64) : Nat :=
  if x.exponentField = 0 then x.fraction else 2 ^ 52 + x.fraction

/-- How far the significand stands above the lowest place a binary64 has. -/
def shift (x : Binary64) : Nat := x.exponentField - 1

/-- **The absolute value of a finite number**, counted in units of `2 ^ (-1074)`. -/
def units (x : Binary64) : Nat := x.significand * Nat.pow 2 x.shift

/-- The number of units in `1`. -/
def unitsPerOne : Nat := 2 ^ 1074

/-- Whether a finite number has no fractional part. -/
def isIntegral (x : Binary64) : Bool := decide (x.units % unitsPerOne = 0)

end Binary64

end LoxLexer
