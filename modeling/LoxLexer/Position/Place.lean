/-!
# Places

A `Place` is where a reader stands in a source text: how many bytes it has read and which
line it is on, counted from 1. Reading a text moves the place by the size of the text and by
the line feeds in it, and reading two texts in turn is reading their concatenation
(`Place.after_append`).
-/

set_option autoImplicit false

namespace LoxLexer

/-- The number of bytes of a text in UTF-8. -/
def byteSize : List Char → Nat
  | [] => 0
  | c :: rest => c.utf8Size + byteSize rest

@[simp] theorem byteSize_nil : byteSize [] = 0 := rfl

@[simp] theorem byteSize_cons (c : Char) (text : List Char) :
    byteSize (c :: text) = c.utf8Size + byteSize text := rfl

@[simp] theorem byteSize_append (s t : List Char) :
    byteSize (s ++ t) = byteSize s + byteSize t := by
  induction s with
  | nil => simp
  | cons c s ih => rw [List.cons_append, byteSize_cons, byteSize_cons, ih, Nat.add_assoc]

theorem byteSize_pos {text : List Char} (h : text ≠ []) : 0 < byteSize text := by
  cases text with
  | nil => exact absurd rfl h
  | cons c rest =>
      rw [byteSize_cons]
      exact Nat.add_pos_left c.utf8Size_pos _

/-- There are no more line feeds in a text than bytes. -/
theorem count_lineFeed_le (text : List Char) : text.count '\n' ≤ byteSize text := by
  induction text with
  | nil => exact Nat.le_refl 0
  | cons c rest ih =>
      have hpos := c.utf8Size_pos
      rw [List.count_cons, byteSize_cons]
      split <;> omega

/-- The size of a text is that of the string it makes up. -/
theorem utf8ByteSize_ofList (text : List Char) :
    (String.ofList text).utf8ByteSize = byteSize text := by
  induction text with
  | nil => rfl
  | cons c rest ih =>
      rw [String.ofList_cons, String.utf8ByteSize_append, ih, byteSize_cons]
      simp

theorem byteSize_toList (source : String) : byteSize source.toList = source.utf8ByteSize := by
  rw [← utf8ByteSize_ofList, String.ofList_toList]

/-- How far a reader has come. -/
structure Place where
  /-- The number of bytes before this place. -/
  offset : Nat
  /-- The line, counted from 1. -/
  line : Nat
deriving DecidableEq

namespace Place

/-- The start of a text. -/
def origin : Place := ⟨0, 1⟩

/-- The place after reading `text` from a place on. -/
def after (place : Place) (text : List Char) : Place :=
  ⟨place.offset + byteSize text, place.line + text.count '\n'⟩

@[simp] theorem after_nil (place : Place) : place.after [] = place := by
  simp [after]

theorem after_append (place : Place) (s t : List Char) :
    place.after (s ++ t) = (place.after s).after t := by
  simp [after, Nat.add_assoc]

end Place

end LoxLexer
