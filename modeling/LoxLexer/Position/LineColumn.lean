/-!
# Lines and columns

The line and column of a byte offset, as reports show them: both are counted from 1, and the
column counts bytes. Here a line ends as text files end it, with a line feed, a carriage
return, or a carriage return and a line feed together.

The program hands a byte offset to the library that draws its reports, which is outside it, and
these are the rules by which that library finds the position. They are not those of the line map.
-/

set_option autoImplicit false

namespace LoxLexer

/-- A line and a column in it, both counted from 1. -/
structure LineColumn where
  line : Nat
  column : Nat
deriving DecidableEq

namespace LineColumn

/-- Where a text begins. -/
def origin : LineColumn := ⟨1, 1⟩

/-- The position after the first `size` bytes of a text that begins at `position`. A carriage
return in front of a line feed leaves the end of the line to the line feed. -/
def afterBytes (position : LineColumn) (size : Nat) : List Char → LineColumn
  | [] => position
  | c :: rest =>
      if size = 0 then position
      else if c = '\n' ∨ (c = '\r' ∧ rest.head? ≠ some '\n') then
        afterBytes ⟨position.line + 1, 1⟩ (size - 1) rest
      else
        afterBytes ⟨position.line, position.column + c.utf8Size⟩ (size - c.utf8Size) rest

/-- The position of a byte offset in a text. -/
def ofOffset (text : String) (offset : Nat) : LineColumn :=
  origin.afterBytes offset text.toList

/-- The text of a position, `line:column`. -/
def text (position : LineColumn) : String := position.line.repr ++ ":" ++ position.column.repr

end LineColumn

end LoxLexer
