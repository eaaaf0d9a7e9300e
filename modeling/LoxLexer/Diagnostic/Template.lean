/-!
# Message templates

A message is written as a template with numbered places, `{0}`, `{1}` and so on. Filling a
template puts the arguments in one after the other: the first argument replaces every `{0}`
of the template, then the second every `{1}` of the result, and so on. So an argument whose
text holds a later place is filled in turn.
-/

set_option autoImplicit false

namespace LoxLexer

/-! ## Replacing a word in a text -/

/-- Copies a text to the end of `out`, writing `value` for each occurrence of `word`. The
first `skip` characters belong to an occurrence that is already written, and are passed
over. -/
def replaceOnto (word value : List Char) (out : Array Char) : Nat → List Char → Array Char
  | _, [] => out
  | skip + 1, _ :: rest => replaceOnto word value out skip rest
  | 0, c :: rest =>
      if word.isPrefixOf (c :: rest) then
        replaceOnto word value (out ++ value) (word.length - 1) rest
      else replaceOnto word value (out.push c) 0 rest

/-- The text with `value` for each occurrence of `word`, which is not to be empty. Occurrences
are found from left to right and do not overlap; what is written is not searched again. -/
def replaceAll (word value text : List Char) : List Char :=
  (replaceOnto word value #[] 0 text).toList

theorem replaceOnto_eq (word value : List Char) (out : Array Char) (skip : Nat)
    (text : List Char) :
    (replaceOnto word value out skip text).toList =
      out.toList ++ replaceAll word value (text.drop skip) := by
  induction text generalizing out skip with
  | nil => simp [replaceOnto, replaceAll]
  | cons c rest ih =>
      cases skip with
      | succ skip => simp [replaceOnto, ih]
      | zero =>
          simp only [replaceOnto, replaceAll, List.drop_zero]
          split
          · rw [ih, ih]; simp
          · rw [ih, ih]; simp

@[simp] theorem replaceAll_nil (word value : List Char) : replaceAll word value [] = [] := by
  simp [replaceAll, replaceOnto]

/-- What the pass does at one character. -/
theorem replaceAll_cons (word value : List Char) (c : Char) (rest : List Char) :
    replaceAll word value (c :: rest) =
      if word.isPrefixOf (c :: rest) then
        value ++ replaceAll word value (rest.drop (word.length - 1))
      else c :: replaceAll word value rest := by
  conv => lhs; unfold replaceAll
  simp only [replaceOnto]
  split <;> rw [replaceOnto_eq] <;> simp

/-! ## Templates -/

/-- The place of argument `index` in a template: its number in braces. -/
def placeholder (index : Nat) : List Char := '\x7b' :: Nat.toDigits 10 index ++ ['\x7d']

/-- Puts the arguments into a text, the first at the places numbered `index`. -/
def fillFrom (index : Nat) (text : List Char) : List (List Char) → List Char
  | [] => text
  | value :: values => fillFrom (index + 1) (replaceAll (placeholder index) value text) values

/-- A kind of message: its code and its wording with places for the arguments. -/
structure Template where
  code : UInt32
  wording : String
deriving DecidableEq

namespace Template

/-- The message with the given arguments. A place without an argument is left as it stands. -/
def fill (template : Template) (arguments : List String) : String :=
  String.ofList (fillFrom 0 template.wording.toList (arguments.map String.toList))

/-- A character that begins no token. -/
def unexpectedCharacter : Template := ⟨1001, "Unexpected character: \x7b0\x7d"⟩

/-- A string whose closing quote is missing. -/
def unterminatedString : Template := ⟨1002, "Unterminated string."⟩

theorem fill_unexpectedCharacter (text : String) :
    unexpectedCharacter.fill [text] = "Unexpected character: " ++ text := by
  have hword : placeholder 0 = ['\x7b', '0', '\x7d'] := by decide
  have hwording : unexpectedCharacter.wording.toList =
      "Unexpected character: ".toList ++ ['\x7b', '0', '\x7d'] := by decide
  have hreplace : replaceAll ['\x7b', '0', '\x7d'] text.toList
      ("Unexpected character: ".toList ++ ['\x7b', '0', '\x7d']) =
      "Unexpected character: ".toList ++ text.toList := by
    simp [replaceAll_cons]
  calc
    unexpectedCharacter.fill [text]
      = String.ofList (replaceAll (placeholder 0) text.toList unexpectedCharacter.wording.toList) :=
        rfl
    _ = String.ofList ("Unexpected character: ".toList ++ text.toList) := by
        rw [hword, hwording, hreplace]
    _ = "Unexpected character: " ++ text := by
        rw [String.ofList_append, String.ofList_toList, String.ofList_toList]

theorem fill_unterminatedString : unterminatedString.fill [] = "Unterminated string." := by
  rw [fill, List.map_nil, fillFrom, String.ofList_toList]
  rfl

end Template

end LoxLexer
