/-!
# Faults of position arithmetic

What can go wrong when positions are given from outside: bounds in the wrong order, a span
that ends beyond the 32-bit positions, a line that a text does not have, a place in a text
that is inside a character or beyond the end.
-/

set_option autoImplicit false

namespace LoxLexer

/-- Why a question about positions has no answer. -/
inductive Fault where
  /-- A span whose end does not fit in 32 bits was asked for its end. -/
  | endOverflow
  /-- A span was to end before it starts. -/
  | reversedBounds
  /-- Line `line`, counted from 0, was asked for in a text of `count` lines. -/
  | noSuchLine (count line : Nat)
  /-- A text was to be cut at a byte offset that is beyond its end or inside a character. -/
  | brokenText (offset : Nat)
  /-- A reader at the end of a text was to read on. -/
  | pastEnd
deriving DecidableEq

/-- The wording of a fault. -/
def Fault.message : Fault → String
  | .endOverflow => "attempt to add with overflow"
  | .reversedBounds => "assertion failed: end >= start"
  | .noSuchLine count line =>
      "index out of bounds: the len is " ++ count.repr ++ " but the index is " ++ line.repr
  | .brokenText offset =>
      "byte index " ++ offset.repr ++ " is out of bounds or not a char boundary"
  | .pastEnd => "advance past end of input"

end LoxLexer
