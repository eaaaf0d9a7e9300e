import LoxLexer.Number.Shortest

/-!
# Number text

The two notations for decimals, *positional* (`0.00125`) and *scientific* (`1.25e-3`), and
the text of a number literal, `Binary64.text`: always positional, the exact value for a
number without a fractional part and the shortest digits for any other.
-/

set_option autoImplicit false

namespace LoxLexer

namespace Decimal

/-- The text of `coefficient / 10 ^ places`, with one digit or more before the point and
exactly `places` digits after it. -/
def fixed (coefficient places : Nat) : String :=
  let fraction := Nat.toDigits 10 (coefficient % Nat.pow 10 places)
  (coefficient / Nat.pow 10 places).repr ++ "." ++ String.ofList (fraction.leftpad places '0')

/-- Positional notation, with one digit or more on each side of the point. -/
def positional (d : Decimal) : String :=
  if d.exponent < 0 then fixed d.coefficient (-d.exponent).toNat
  else (d.coefficient * Nat.pow 10 d.exponent.toNat).repr ++ ".0"

/-- The power of ten of the leading digit. -/
def leadingExponent (d : Decimal) : Int :=
  d.exponent + ((Nat.toDigits 10 d.coefficient).length - 1 : Nat)

/-- Scientific notation: the leading digit, the other digits behind a point if there are any,
and the exponent, whose sign is always written. -/
def scientific (d : Decimal) : String :=
  let places := (Nat.toDigits 10 d.coefficient).length - 1
  let digits := if places = 0 then d.coefficient.repr else fixed d.coefficient places
  let sign := if d.leadingExponent < 0 then "-" else "+"
  digits ++ "e" ++ sign ++ d.leadingExponent.natAbs.repr

end Decimal

namespace Binary64

/-- The text of a finite number without its sign: the exact value and `.0` if there is no
fractional part, otherwise the shortest digits in positional notation, a tie between two
decimals going up. -/
def absText (x : Binary64) : String :=
  if x.isIntegral then (x.units / unitsPerOne).repr ++ ".0"
  else (x.shortest .up).positional

/-- **Number text.** There is never an exponent, and a zero keeps its sign. -/
def text (x : Binary64) : String :=
  if x.isNaN then "NaN"
  else (if x.negative then "-" else "") ++ (if x.isFinite then x.absText else "inf")

end Binary64

end LoxLexer
