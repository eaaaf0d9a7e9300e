import LoxLexer.Number.Rounding
import LoxLexer.Text.Runs

/-!
# Numerals

A numeral is a run of decimal digits, or two runs with a point between them. It stands for an
exact fraction, whose denominator is a power of ten, and its value is the binary64 nearest to
that fraction. The text of a numeral tells which numeral it is (`ofText?_text`).
-/

set_option autoImplicit false

namespace LoxLexer

/-- A number as it is written in a source. -/
structure Numeral where
  /-- The digits before the point. -/
  whole : List Char
  /-- The digits after the point, if there is a point. -/
  fraction : Option (List Char)
deriving DecidableEq

namespace Numeral

/-- How the numeral is written. -/
def text (n : Numeral) : List Char :=
  match n.fraction with
  | none => n.whole
  | some digits => n.whole ++ '.' :: digits

/-- All digits of the numeral, the point left out. -/
def digits (n : Numeral) : List Char := n.whole ++ n.fraction.getD []

/-- The number of digits after the point. -/
def places (n : Numeral) : Nat := (n.fraction.getD []).length

/-- The number that all digits write together. -/
def numerator (n : Numeral) : Nat := Nat.ofDigitChars 10 n.digits 0

/-- The power of ten that the point divides by. -/
def denominator (n : Numeral) : Nat := Nat.pow 10 n.places

/-- **The value of a numeral**, correctly rounded. -/
def value (n : Numeral) : Binary64 := Binary64.nearest n.numerator n.denominator

/-! ## Reading a numeral back -/

/-- There are digits before the point and, if there is a point, behind it. -/
structure WellFormed (n : Numeral) : Prop where
  whole_ne_nil : n.whole ≠ []
  isDigit_whole : ∀ c ∈ n.whole, c.isDigit
  fraction_ne_nil : ∀ digits, n.fraction = some digits → digits ≠ []
  isDigit_fraction : ∀ digits, n.fraction = some digits → ∀ c ∈ digits, c.isDigit

theorem wellFormed_integer {whole : List Char} (hne : whole ≠ [])
    (hwhole : ∀ c ∈ whole, c.isDigit) : WellFormed ⟨whole, none⟩ where
  whole_ne_nil := hne
  isDigit_whole := hwhole
  fraction_ne_nil digits h := by cases h
  isDigit_fraction digits h := by cases h

theorem wellFormed_decimal {whole digits : List Char} (hne : whole ≠ [])
    (hwhole : ∀ c ∈ whole, c.isDigit) (hne' : digits ≠ []) (hdigits : ∀ c ∈ digits, c.isDigit) :
    WellFormed ⟨whole, some digits⟩ where
  whole_ne_nil := hne
  isDigit_whole := hwhole
  fraction_ne_nil _ h := Option.some.inj h ▸ hne'
  isDigit_fraction _ h := Option.some.inj h ▸ hdigits

/-- A well-formed numeral is written with digits and a point. -/
theorem WellFormed.isDigit_or_point {n : Numeral} (h : n.WellFormed) {c : Char}
    (hc : c ∈ n.text) : c.isDigit ∨ c = '.' := by
  unfold text at hc
  split at hc
  · exact Or.inl (h.isDigit_whole c hc)
  · rename_i digits hfraction
    rcases List.mem_append.mp hc with hwhole | hbehind
    · exact Or.inl (h.isDigit_whole c hwhole)
    · rcases List.mem_cons.mp hbehind with hpoint | hdigit
      · exact Or.inr hpoint
      · exact Or.inl (h.isDigit_fraction digits hfraction c hdigit)

/-- Other characters are not in it. -/
theorem WellFormed.not_mem_text {n : Numeral} (h : n.WellFormed) {c : Char}
    (hdigit : c.isDigit = false) (hpoint : c ≠ '.') : c ∉ n.text := by
  intro hmem
  rcases h.isDigit_or_point hmem with hdigit' | hpoint'
  · rw [hdigit] at hdigit'
    cases hdigit'
  · exact hpoint hpoint'

/-- It stays on its line. -/
theorem WellFormed.lineFeed_not_mem {n : Numeral} (h : n.WellFormed) : '\n' ∉ n.text :=
  h.not_mem_text (by decide) (by decide)

/-- It begins with a digit. -/
theorem WellFormed.isDigit_of_head {n : Numeral} (h : n.WellFormed) {c : Char}
    (hc : n.text.head? = some c) : c.isDigit := by
  obtain ⟨d, digits, hwhole⟩ := List.exists_cons_of_ne_nil h.whole_ne_nil
  have hd : d.isDigit := h.isDigit_whole d (by rw [hwhole]; exact List.mem_cons_self ..)
  have hhead : n.text.head? = some d := by
    rw [text, hwhole]
    split <;> rfl
  rw [hhead] at hc
  exact Option.some.inj hc ▸ hd

/-- The numeral that a text writes, if it is one. -/
def ofText? (text : List Char) : Option Numeral :=
  let whole := text.takeWhile Char.isDigit
  if whole = [] then none
  else
    match text.dropWhile Char.isDigit with
    | [] => some ⟨whole, none⟩
    | point :: digits =>
        if point = '.' ∧ digits ≠ [] ∧ digits.all Char.isDigit then some ⟨whole, some digits⟩
        else none

/-- A well-formed numeral is read back from its text. -/
theorem ofText?_text {n : Numeral} (h : n.WellFormed) : ofText? n.text = some n := by
  obtain ⟨whole, fraction⟩ := n
  have hne : whole ≠ [] := h.whole_ne_nil
  have hwhole : ∀ c ∈ whole, c.isDigit := h.isDigit_whole
  cases fraction with
  | none =>
      have htake := takeWhile_append_of_halts hwhole halts_nil
      have hdrop := dropWhile_append_of_halts hwhole halts_nil
      rw [List.append_nil] at htake hdrop
      simp only [ofText?, text, htake, hdrop, if_neg hne]
  | some digits =>
      have hdigits : digits ≠ [] ∧ digits.all Char.isDigit :=
        ⟨h.fraction_ne_nil digits rfl, List.all_eq_true.mpr (h.isDigit_fraction digits rfl)⟩
      -- the digits before the point end there, since a point is no digit
      have hpoint : Halts Char.isDigit ('.' :: digits) := halts_cons (by decide)
      have htake := takeWhile_append_of_halts hwhole hpoint
      have hdrop := dropWhile_append_of_halts hwhole hpoint
      simp only [ofText?, text, htake, hdrop, if_neg hne]
      rw [if_pos ⟨trivial, hdigits⟩]

end Numeral

end LoxLexer
