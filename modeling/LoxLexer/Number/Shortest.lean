import LoxLexer.Number.Binary64

/-!
# The shortest decimal of a binary64

Many decimals round to one binary64: all those within half a gap of it, the two borders
included when its significand is even. `Binary64.shortest` picks one with the fewest
significant digits and, among those, one nearest to the exact value.

For each number of digits the decimals form a grid, and if any point of a grid rounds to the
number then so does one of the two points next to the exact value. So the search looks at
those two points on the grids of 1, 2, 3, … digits and takes the first grid with a hit.

The decimals that round to a number are a `Window`. It shifts the decimal point so far that
whole numbers are a fine enough grid, and compares by cross multiplication, so that nothing
is rounded.
-/

set_option autoImplicit false

namespace LoxLexer

/-! ## Decimals -/

/-- A decimal: `coefficient * 10 ^ exponent`. -/
structure Decimal where
  coefficient : Nat
  exponent : Int
deriving DecidableEq

/-- The same decimal without zeros at the end of its coefficient; zero is kept as it is. -/
def Decimal.trim (d : Decimal) : Decimal :=
  if d.coefficient % 10 = 0 ∧ 0 < d.coefficient then
    trim ⟨d.coefficient / 10, d.exponent + 1⟩
  else d
termination_by d.coefficient
decreasing_by exact Nat.div_lt_self (by omega) (by decide)

/-- Which of two equally near decimals is taken. -/
inductive Tie where
  /-- The larger one. -/
  | up
  /-- The one with the even coefficient. -/
  | toEven
deriving DecidableEq

/-! ## Windows -/

/-- The decimals that round to one number. A point `n` of the window stands for
`n / 10 ^ places`, and `value`, `lower` and `upper` are such points times `scale`. -/
structure Window where
  /-- How far the decimal point is shifted. -/
  places : Nat
  scale : Nat
  /-- The number itself. -/
  value : Nat
  lower : Nat
  upper : Nat
  /-- Whether the two borders round to the number as well. -/
  closed : Bool

namespace Window

/-- Whether a point rounds to the number. -/
def holds (w : Window) (point : Nat) : Bool :=
  let scaled := point * w.scale
  decide (w.lower < scaled ∧ scaled < w.upper) ||
    (w.closed && (scaled == w.lower || scaled == w.upper))

/-- Whether the point `(d + 1) * grid` is to be preferred to the point `d * grid`: it is nearer
to the number, or as near and favoured by the tie rule. -/
def prefersUpper (w : Window) (tie : Tie) (grid d : Nat) : Bool :=
  -- twice the point halfway between the two, so that all are whole numbers
  let middle := (2 * d + 1) * grid * w.scale
  decide (middle < 2 * w.value ∨ (middle = 2 * w.value ∧ (tie = .up ∨ d % 2 = 1)))

/-- On the grid of spacing `10 ^ place`, the decimal that rounds to the number and is nearest
to it, if the grid has one. -/
def onGrid (w : Window) (tie : Tie) (place : Nat) : Option Decimal :=
  let grid := Nat.pow 10 place
  let d := w.value / (w.scale * grid)
  let lowerHit := w.holds (d * grid)
  let upperHit := w.holds ((d + 1) * grid)
  let exponent : Int := place - w.places
  if upperHit && (!lowerHit || w.prefersUpper tie grid d) then some ⟨d + 1, exponent⟩
  else if lowerHit then some ⟨d, exponent⟩
  else none

/-- The number of digits before the shifted decimal point. -/
def digits (w : Window) : Nat := (Nat.toDigits 10 (w.value / w.scale)).length

/-- The nearest decimal in the window on the coarsest grid that meets it, among the grids that
give the number from one digit to as many as it has before the shifted point. -/
def search (w : Window) (tie : Tie) : Option Decimal :=
  let digits := w.digits
  (List.range digits).findSome? fun n => w.onGrid tie (digits - (n + 1))

end Window

namespace Binary64

/-- Whether the gap below a number is half of the gap above it: so it is at a power of two,
unless the numbers below are spaced by one unit already. -/
def gapNarrows (x : Binary64) : Bool := decide (x.fraction = 0 ∧ 1 < x.exponentField)

/-- **The decimals that round to a finite number.** Its significand and the borders of the
window are counted in quarters of the gap above it: the borders are half a gap away. -/
def window (x : Binary64) : Window :=
  let places := 20 + (1074 - x.shift) / 3
  let quarter := Nat.pow 2 (x.shift - 1074) * Nat.pow 10 places
  { places := places
    scale := 4 * Nat.pow 2 (1074 - x.shift)
    value := 4 * x.significand * quarter
    lower := (4 * x.significand - if x.gapNarrows then 1 else 2) * quarter
    upper := (4 * x.significand + 2) * quarter
    closed := x.significand % 2 == 0 }

/-- The exact value of a finite number as a decimal. -/
def exact (x : Binary64) : Decimal := ⟨x.units * 5 ^ 1074, -1074⟩

/-- **The shortest decimal that rounds to `x`**, for a finite `x` other than zero: no decimal
with fewer significant digits rounds to `x`, and of those with as many none is nearer. Were
the search to fail, the exact value would be taken, so the result reads back in any case. -/
def shortest (x : Binary64) (tie : Tie) : Decimal :=
  ((x.window.search tie).getD x.exact).trim

end Binary64

end LoxLexer
