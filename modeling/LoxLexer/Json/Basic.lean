import LoxLexer.Number.Layout

/-!
# JSON documents

JSON values and their compact text, with no blanks between the parts. The members of an
object keep their order.

In a string only what must be escaped is escaped: the double quote, the backslash and the
characters below U+0020. A number is written with the shortest digits that read back, and one
that is not finite, for which JSON has no text, as `null`.

The writer is that of the JSON library that the program is built on, which is outside it: the
library decides what is escaped, how numbers are written and which of two decimals is taken.
-/

set_option autoImplicit false

namespace LoxLexer

/-- A JSON value. -/
inductive Json where
  | null
  | natural (n : Nat)
  | number (x : Binary64)
  | string (s : String)
  | array (items : List Json)
  | object (members : List (String × Json))

namespace Json

/-! ## Strings -/

/-- How a character is written in a string. -/
def escape (c : Char) : List Char :=
  if c = '"' then ['\\', '"']
  else if c = '\\' then ['\\', '\\']
  else if c = '\x08' then ['\\', 'b']
  else if c = '\t' then ['\\', 't']
  else if c = '\n' then ['\\', 'n']
  else if c = '\x0c' then ['\\', 'f']
  else if c = '\r' then ['\\', 'r']
  else if c.toNat < 0x20 then
    ['\\', 'u', '0', '0', Nat.digitChar (c.toNat / 16), Nat.digitChar (c.toNat % 16)]
  else [c]

/-- The text of a string, in quotes. -/
def quoted (s : String) : String :=
  "\"" ++ String.ofList (s.toList.flatMap escape) ++ "\""

/-! ## Numbers -/

/-- The text of a finite number without its sign: positional for decimals from `1e-5` up to
`1e16`, scientific for others, a tie between two decimals going to the even one. -/
def absNumber (x : Binary64) : String :=
  if x.isZero then "0.0"
  else
    let decimal := x.shortest .toEven
    let leading := decimal.leadingExponent
    if -5 ≤ leading ∧ leading ≤ 15 then decimal.positional else decimal.scientific

/-- The text of a number. -/
def numberText (x : Binary64) : String :=
  if x.isFinite then (if x.negative then "-" else "") ++ absNumber x else "null"

/-! ## Values -/

mutual

/-- Adds the text of a value to `out`. -/
def write (out : String) : Json → String
  | null => out ++ "null"
  | natural n => out ++ n.repr
  | number x => out ++ numberText x
  | string s => out ++ quoted s
  | array items => writeItems (out ++ "[") items ++ "]"
  | object members => writeMembers (out ++ "\x7b") members ++ "\x7d"

/-- Adds the texts of the items of an array, with commas between them. -/
def writeItems (out : String) : List Json → String
  | [] => out
  | [item] => write out item
  | item :: next :: rest => writeItems (write out item ++ ",") (next :: rest)

/-- Adds the texts of the members of an object, with commas between them. -/
def writeMembers (out : String) : List (String × Json) → String
  | [] => out
  | [(name, value)] => write (out ++ quoted name ++ ":") value
  | (name, value) :: next :: rest =>
      writeMembers (write (out ++ quoted name ++ ":") value ++ ",") (next :: rest)

end

/-- **The compact text of a value.** -/
def text (value : Json) : String := write "" value

end Json

end LoxLexer
