import LoxLexer.Piece.Class
import LoxLexer.Proofs.DecimalText

/-!
# The grammar of JSON

The standard grammar of JSON documents as a relation between a text and the value it stands for.
All of it is here, also what the compact writer never uses: blanks, the other escapes in strings,
fractions and exponents of any form. Only an escape for one half of a surrogate pair is left out,
since no string of characters holds one.

A text is a document of one value at most (`IsDocument.unique`), so it makes sense to speak of
reading it.
-/

set_option autoImplicit false

namespace LoxLexer

namespace Json

/-! ## Values -/

/-- What a document stands for. The magnitude of a number is an exact fraction, and its sign is kept
apart, so that there are two zeros. The members of an object are in order and may repeat a name. -/
inductive Value where
  | null
  | boolean (b : Bool)
  | number (negative : Bool) (magnitude : ℚ)
  | string (s : String)
  | array (items : List Value)
  | object (members : List (String × Value))

/-! ## Numbers -/

/-- The exponent of a number, as it is written. -/
structure Exponent where
  mark : Char
  sign : List Char
  digits : List Char

namespace Exponent

def text (e : Exponent) : List Char := e.mark :: (e.sign ++ e.digits)

def value (e : Exponent) : Int :=
  if e.sign = ['-'] then -(Nat.ofDigitChars 10 e.digits 0) else Nat.ofDigitChars 10 e.digits 0

structure WellFormed (e : Exponent) : Prop where
  mark : e.mark = 'e' ∨ e.mark = 'E'
  sign : e.sign = [] ∨ e.sign = ['+'] ∨ e.sign = ['-']
  digits_ne_nil : e.digits ≠ []
  isDigit_digits : ∀ c ∈ e.digits, c.isDigit

end Exponent

/-- A number, as it is written. -/
structure Number where
  negative : Bool
  numeral : Numeral
  exponent : Option Exponent

namespace Number

/-- The sign in front of a number. -/
def sign (negative : Bool) : List Char := if negative then ['-'] else []

def exponentText (n : Number) : List Char := (n.exponent.map Exponent.text).getD []

def text (n : Number) : List Char := sign n.negative ++ (n.numeral.text ++ n.exponentText)

/-- The exact value of a number, without its sign. -/
def magnitude (n : Number) : ℚ :=
  n.numeral.toRat * 10 ^ ((n.exponent.map Exponent.value).getD 0)

structure WellFormed (n : Number) : Prop where
  numeral : n.numeral.WellFormed
  noLeadingZero : n.numeral.NoLeadingZero
  exponent : ∀ e, n.exponent = some e → e.WellFormed

end Number

/-! ## Strings -/

/-- The character that a backslash and a letter stand for. -/
def shortEscape? : Char → Option Char
  | '"' => some '"'
  | '\\' => some '\\'
  | '/' => some '/'
  | 'b' => some '\x08'
  | 'f' => some '\x0c'
  | 'n' => some '\n'
  | 'r' => some '\r'
  | 't' => some '\t'
  | _ => none

def hexDigit? (c : Char) : Option Nat :=
  if '0' ≤ c ∧ c ≤ '9' then some (c.toNat - '0'.toNat)
  else if 'a' ≤ c ∧ c ≤ 'f' then some (c.toNat - 'a'.toNat + 10)
  else if 'A' ≤ c ∧ c ≤ 'F' then some (c.toNat - 'A'.toNat + 10)
  else none

/-- The code unit that four hexadecimal digits stand for. -/
def codeUnit? (a b c d : Char) : Option Nat := do
  some ((((← hexDigit? a) * 16 + (← hexDigit? b)) * 16 + (← hexDigit? c)) * 16 + (← hexDigit? d))

/-- `Body s body rest`: the characters `body` of a string are written in front of `s`, then comes
the closing quote, and `rest` is behind it. -/
inductive Body : List Char → List Char → List Char → Prop where
  | close {rest : List Char} : Body ('"' :: rest) [] rest
  | plain {c : Char} {s body rest : List Char} : c ≠ '"' → c ≠ '\\' → 0x20 ≤ c.toNat →
      Body s body rest → Body (c :: s) (c :: body) rest
  | short {letter c : Char} {s body rest : List Char} : shortEscape? letter = some c →
      Body s body rest → Body ('\\' :: letter :: s) (c :: body) rest
  | unit {a b c d : Char} {n : Nat} {s body rest : List Char} : codeUnit? a b c d = some n →
      n < 0xD800 ∨ 0xE000 ≤ n →
      Body s body rest → Body ('\\' :: 'u' :: a :: b :: c :: d :: s) (Char.ofNat n :: body) rest
  | pair {a b c d e f g h : Char} {high low : Nat} {s body rest : List Char} :
      codeUnit? a b c d = some high → 0xD800 ≤ high → high < 0xDC00 →
      codeUnit? e f g h = some low → 0xDC00 ≤ low → low < 0xE000 →
      Body s body rest →
      Body ('\\' :: 'u' :: a :: b :: c :: d :: '\\' :: 'u' :: e :: f :: g :: h :: s)
        (Char.ofNat (0x10000 + (high - 0xD800) * 0x400 + (low - 0xDC00)) :: body) rest

/-! ## Documents -/

/-- `Skip s rest`: there are blanks in front of `s`, and `rest` is behind them. -/
inductive Skip : List Char → List Char → Prop where
  | none {rest : List Char} : Skip rest rest
  | blank {c : Char} {s rest : List Char} : isBlank c → Skip s rest → Skip (c :: s) rest

/-- `Name s name rest`: the name of a member and the colon behind it. -/
inductive Name : List Char → String → List Char → Prop where
  | colon {s quoted after rest body : List Char} : Skip s ('"' :: quoted) → Body quoted body after →
      Skip after (':' :: rest) → Name s (String.ofList body) rest

/-- What the rules of the grammar are about, with its value. -/
inductive Part where
  | value (v : Value)
  /-- A value with blanks on both sides. -/
  | padded (v : Value)
  | items (vs : List Value)
  | members (ms : List (String × Value))

/-- **`Reads part s rest`**: the part is written in front of `s`, and `rest` is behind it. -/
inductive Reads : Part → List Char → List Char → Prop where
  | nullWord {rest : List Char} : Reads (.value .null) ('n' :: 'u' :: 'l' :: 'l' :: rest) rest
  | trueWord {rest : List Char} :
      Reads (.value (.boolean true)) ('t' :: 'r' :: 'u' :: 'e' :: rest) rest
  | falseWord {rest : List Char} :
      Reads (.value (.boolean false)) ('f' :: 'a' :: 'l' :: 's' :: 'e' :: rest) rest
  | number {n : Number} {s rest : List Char} : n.WellFormed → s = n.text ++ rest →
      Reads (.value (.number n.negative n.magnitude)) s rest
  | string {s body rest : List Char} : Body s body rest →
      Reads (.value (.string (String.ofList body))) ('"' :: s) rest
  | emptyArray {s rest : List Char} : Skip s (']' :: rest) →
      Reads (.value (.array [])) ('[' :: s) rest
  | array {s rest : List Char} {vs : List Value} : Reads (.items vs) s (']' :: rest) →
      Reads (.value (.array vs)) ('[' :: s) rest
  | emptyObject {s rest : List Char} : Skip s ('\x7d' :: rest) →
      Reads (.value (.object [])) ('\x7b' :: s) rest
  | object {s rest : List Char} {ms : List (String × Value)} :
      Reads (.members ms) s ('\x7d' :: rest) → Reads (.value (.object ms)) ('\x7b' :: s) rest
  | padded {s inner after rest : List Char} {v : Value} : Skip s inner →
      Reads (.value v) inner after → Skip after rest → Reads (.padded v) s rest
  | lastItem {s rest : List Char} {v : Value} : Reads (.padded v) s rest → Reads (.items [v]) s rest
  | item {s next rest : List Char} {v : Value} {vs : List Value} :
      Reads (.padded v) s (',' :: next) → Reads (.items vs) next rest →
      Reads (.items (v :: vs)) s rest
  | lastMember {s after rest : List Char} {name : String} {v : Value} : Name s name after →
      Reads (.padded v) after rest → Reads (.members [(name, v)]) s rest
  | member {s after next rest : List Char} {name : String} {v : Value}
      {ms : List (String × Value)} : Name s name after → Reads (.padded v) after (',' :: next) →
      Reads (.members ms) next rest → Reads (.members ((name, v) :: ms)) s rest

/-- **The text is a document of the value.** -/
def IsDocument (text : List Char) (v : Value) : Prop := Reads (.padded v) text []

/-! ## Strings are read in one way -/

variable {s rest rest' body body' : List Char}

theorem Body.unique (h : Body s body rest) (h' : Body s body' rest') :
    body = body' ∧ rest = rest' := by
  induction h generalizing body' rest' with
  | close =>
      cases h' with
      | close => exact ⟨rfl, rfl⟩
      | plain hquote => exact absurd rfl hquote
  | plain hquote hslash _ _ ih =>
      cases h' with
      | close => exact absurd rfl hquote
      | plain _ _ _ h' =>
          obtain ⟨rfl, rfl⟩ := ih h'
          exact ⟨rfl, rfl⟩
      | short => exact absurd rfl hslash
      | unit => exact absurd rfl hslash
      | pair => exact absurd rfl hslash
  | short hletter _ ih =>
      cases h' with
      | plain _ hslash => exact absurd rfl hslash
      | short hletter' h' =>
          obtain ⟨rfl, rfl⟩ := ih h'
          obtain rfl := Option.some.inj (hletter.symm.trans hletter')
          exact ⟨rfl, rfl⟩
      | unit => cases hletter
      | pair => cases hletter
  | unit hcode hrange _ ih =>
      cases h' with
      | plain _ hslash => exact absurd rfl hslash
      | short hletter => cases hletter
      | unit hcode' _ h' =>
          obtain ⟨rfl, rfl⟩ := ih h'
          obtain rfl := Option.some.inj (hcode.symm.trans hcode')
          exact ⟨rfl, rfl⟩
      | pair hcode' hhigh hless =>
          obtain rfl := Option.some.inj (hcode.symm.trans hcode')
          omega
  | pair hcode hhigh hless hcode₂ hlow hlow' _ ih =>
      cases h' with
      | plain _ hslash => exact absurd rfl hslash
      | short hletter => cases hletter
      | unit hcode' hrange h' =>
          obtain rfl := Option.some.inj (hcode.symm.trans hcode')
          omega
      | pair hcode' _ _ hcode₂' _ _ h' =>
          obtain ⟨rfl, rfl⟩ := ih h'
          obtain rfl := Option.some.inj (hcode.symm.trans hcode')
          obtain rfl := Option.some.inj (hcode₂.symm.trans hcode₂')
          exact ⟨rfl, rfl⟩

/-! ## Numbers are read in one way -/

/-- The characters that numbers are made from. -/
def isNumberChar (c : Char) : Bool := c.isDigit || ['.', '-', '+', 'e', 'E'].contains c

/-- The characters of a number up to its exponent. -/
def isNumeralChar (c : Char) : Bool := c.isDigit || c == '.'

variable {c : Char}

theorem isNumberChar_of_isNumeralChar (h : isNumeralChar c = true) : isNumberChar c = true := by
  rw [isNumeralChar, Bool.or_eq_true, beq_iff_eq] at h
  rcases h with hdigit | rfl
  · rw [isNumberChar, hdigit, Bool.true_or]
  · decide

theorem Exponent.WellFormed.isNumberChar {e : Exponent} (h : e.WellFormed) (hc : c ∈ e.text) :
    isNumberChar c = true := by
  rcases List.mem_cons.mp hc with rfl | hbehind
  · rcases h.mark with hmark | hmark <;> rw [hmark] <;> decide
  · rcases List.mem_append.mp hbehind with hsign | hdigit
    · rcases h.sign with hs | hs | hs <;> rw [hs] at hsign
      · cases hsign
      · rw [List.mem_singleton.mp hsign]
        decide
      · rw [List.mem_singleton.mp hsign]
        decide
    · rw [Json.isNumberChar, h.isDigit_digits c hdigit, Bool.true_or]

/-- No sign is a digit, and digits are behind it. -/
theorem Exponent.WellFormed.not_isDigit_sign {e : Exponent} (h : e.WellFormed) :
    ∀ c ∈ e.sign, (!c.isDigit) = true := by
  rcases h.sign with hs | hs | hs <;> rw [hs]
  · exact nofun
  · exact List.forall_mem_singleton.mpr (by decide)
  · exact List.forall_mem_singleton.mpr (by decide)

theorem Exponent.WellFormed.halts_digits {e : Exponent} (h : e.WellFormed) :
    Halts (fun c => !c.isDigit) e.digits := by
  intro c hc
  have hdigit := h.isDigit_digits c (List.mem_of_mem_head? hc)
  simpa using hdigit

namespace Number

variable {m n : Number}

theorem WellFormed.text_numeral_ne_nil (h : n.WellFormed) : n.numeral.text ≠ [] := by
  rw [Numeral.text]
  split
  · exact h.numeral.whole_ne_nil
  · exact List.append_ne_nil_of_right_ne_nil _ (List.cons_ne_nil _ _)

theorem isNumeralChar_of_mem (h : n.WellFormed) (hc : c ∈ n.numeral.text) :
    isNumeralChar c = true := by
  rcases h.numeral.isDigit_or_point hc with hdigit | rfl
  · rw [isNumeralChar, hdigit, Bool.true_or]
  · decide

theorem isNumberChar_of_mem (h : n.WellFormed) (hc : c ∈ n.text) : isNumberChar c = true := by
  rcases List.mem_append.mp hc with hsign | hbehind
  · rw [sign] at hsign
    split at hsign
    · rw [List.mem_singleton.mp hsign]
      decide
    · cases hsign
  · rcases List.mem_append.mp hbehind with hnumeral | hexponent
    · exact isNumberChar_of_isNumeralChar (isNumeralChar_of_mem h hnumeral)
    · rw [exponentText] at hexponent
      cases he : n.exponent with
      | none =>
          rw [he] at hexponent
          cases hexponent
      | some e =>
          rw [he] at hexponent
          exact (h.exponent e he).isNumberChar hexponent

/-- The exponent does not go on with the digits in front of it. -/
theorem halts_exponentText (h : n.WellFormed) : Halts isNumeralChar n.exponentText := by
  rw [exponentText]
  cases he : n.exponent with
  | none => exact halts_nil
  | some e =>
      refine halts_cons ?_
      rcases (h.exponent e he).mark with hmark | hmark <;> rw [hmark] <;> decide

/-- What begins with a number begins with such a character. -/
theorem isNumberChar_of_head (h : n.WellFormed) (hs : c :: s = n.text ++ rest) :
    isNumberChar c = true := by
  have hne : n.text ≠ [] := List.append_ne_nil_of_right_ne_nil _
    (List.append_ne_nil_of_left_ne_nil h.text_numeral_ne_nil _)
  have hfront : (n.text ++ rest).head? = n.text.head? := List.head?_append_of_ne_nil _ hne
  have hhead : n.text.head? = some c := by
    rw [← hfront, ← hs]
    rfl
  exact isNumberChar_of_mem h (List.mem_of_mem_head? hhead)

end Number

/-- The text of an exponent tells which one it is. -/
theorem Exponent.eq_of_text_eq {e e' : Exponent} (h : e.WellFormed) (h' : e'.WellFormed)
    (htext : e.text = e'.text) : e = e' := by
  obtain ⟨mark, sign, digits⟩ := e
  obtain ⟨mark', sign', digits'⟩ := e'
  have hmark : mark = mark' := List.head_eq_of_cons_eq htext
  have hbehind : sign ++ digits = sign' ++ digits' := List.tail_eq_of_cons_eq htext
  obtain ⟨hsign, hdigits⟩ := append_inj_of_halts h.not_isDigit_sign h'.not_isDigit_sign
    h.halts_digits h'.halts_digits hbehind
  dsimp only at hsign hdigits
  rw [hmark, hsign, hdigits]

/-- A number has its sign in front of its numeral. -/
theorem Number.halts_behind_sign {n : Number} (h : n.WellFormed) :
    Halts (· == '-') (n.numeral.text ++ n.exponentText) := by
  intro c hc
  rw [List.head?_append_of_ne_nil _ (h.text_numeral_ne_nil)] at hc
  have hdigit := h.numeral.isDigit_of_head hc
  refine beq_eq_false_iff_ne.mpr ?_
  rintro rfl
  exact absurd hdigit (by decide)

/-- **The text of a number tells which one it is.** -/
theorem Number.eq_of_text_eq {m n : Number} (hm : m.WellFormed) (hn : n.WellFormed)
    (htext : m.text = n.text) : m = n := by
  have hsigns (negative : Bool) : ∀ c ∈ sign negative, (c == '-') = true := by
    cases negative with
    | true => exact List.forall_mem_singleton.mpr (by decide)
    | false => exact nofun
  obtain ⟨hsign, hbehind⟩ := append_inj_of_halts (hsigns m.negative) (hsigns n.negative)
    (halts_behind_sign hm) (halts_behind_sign hn) htext
  obtain ⟨hnumeral, hexponent⟩ := append_inj_of_halts (fun _ => isNumeralChar_of_mem hm)
    (fun _ => isNumeralChar_of_mem hn) (halts_exponentText hm) (halts_exponentText hn) hbehind
  have hread := Numeral.ofText?_text hm.numeral
  rw [hnumeral, Numeral.ofText?_text hn.numeral] at hread
  obtain ⟨negative, numeral, exponent⟩ := m
  obtain ⟨negative', numeral', exponent'⟩ := n
  obtain rfl : negative = negative' := by
    cases negative <;> cases negative' <;> first | rfl | cases hsign
  obtain rfl : numeral = numeral' := (Option.some.inj hread).symm
  cases exponent with
  | none =>
      cases exponent' with
      | none => rfl
      | some e' => cases hexponent
  | some e =>
      cases exponent' with
      | none => cases hexponent
      | some e' =>
          rw [Exponent.eq_of_text_eq (hm.exponent e rfl) (hn.exponent e' rfl) hexponent]

/-! ## Blanks are read in one way -/

theorem Skip.eq_of_halts (h : Skip s rest) (hrest : Halts isBlank rest) (h' : Skip s rest')
    (hrest' : Halts isBlank rest') : rest = rest' := by
  induction h with
  | none =>
      cases h' with
      | none => rfl
      | blank hblank =>
          rw [hrest _ rfl] at hblank
          cases hblank
  | blank hblank _ ih =>
      cases h' with
      | none =>
          rw [hrest' _ rfl] at hblank
          cases hblank
      | blank _ h' => exact ih hrest h'

theorem isNumberChar_of_isBlank (h : isBlank c) : isNumberChar c = false := by
  simp only [isBlank, isSpacing, Bool.or_eq_true, beq_iff_eq] at h
  rcases h with ((rfl | rfl) | rfl) | rfl <;> decide

/-- Blanks do not go on with a number. -/
theorem Skip.halts (h : Skip s rest) (hrest : Halts isNumberChar rest) : Halts isNumberChar s := by
  cases h with
  | none => exact hrest
  | blank hblank => exact halts_cons (isNumberChar_of_isBlank hblank)

theorem Name.unique {name name' : String} (h : Name s name rest) (h' : Name s name' rest') :
    name = name' ∧ rest = rest' := by
  have hquote (text : List Char) : Halts isBlank ('"' :: text) := halts_cons (by decide)
  have hcolon (text : List Char) : Halts isBlank (':' :: text) := halts_cons (by decide)
  cases h with
  | colon hskip hbody hafter =>
      cases h' with
      | colon hskip' hbody' hafter' =>
          cases hskip.eq_of_halts (hquote _) hskip' (hquote _)
          obtain ⟨rfl, rfl⟩ := hbody.unique hbody'
          cases hafter.eq_of_halts (hcolon _) hafter' (hcolon _)
          exact ⟨rfl, rfl⟩

/-! ## Documents are read in one way -/

/-- A value begins with neither a blank nor a closing bracket. -/
theorem Reads.head_value {v : Value} (h : Reads (.value v) s rest) :
    Halts isBlank s ∧ s.head? ≠ some ']' := by
  have hcons (c : Char) (more : List Char) (hblank : isBlank c = false) (hc : c ≠ ']') :
      Halts isBlank (c :: more) ∧ (c :: more).head? ≠ some ']' :=
    ⟨halts_cons hblank, fun heq => hc (Option.some.inj heq)⟩
  cases h with
  | nullWord => exact hcons _ _ (by decide) (by decide)
  | trueWord => exact hcons _ _ (by decide) (by decide)
  | falseWord => exact hcons _ _ (by decide) (by decide)
  | @number n s rest hn hs =>
      have hhead (c : Char) (hc : s.head? = some c) : isNumberChar c = true := by
        obtain ⟨more, rfl⟩ := List.head?_eq_some_iff.mp hc
        exact Number.isNumberChar_of_head hn hs
      refine ⟨fun c hc => Bool.eq_false_iff.mpr fun hblank => ?_, fun hc => ?_⟩
      · exact absurd (hhead c hc) (Bool.eq_false_iff.mp (isNumberChar_of_isBlank hblank))
      · exact absurd (hhead _ hc) (by decide)
  | string => exact hcons _ _ (by decide) (by decide)
  | emptyArray => exact hcons _ _ (by decide) (by decide)
  | array => exact hcons _ _ (by decide) (by decide)
  | emptyObject => exact hcons _ _ (by decide) (by decide)
  | object => exact hcons _ _ (by decide) (by decide)

/-- Items do not begin with the end of an array, even behind blanks. -/
theorem Reads.not_skip_items {vs : List Value} (h : Reads (.items vs) s rest) :
    ¬ Skip s (']' :: rest') := by
  intro hskip
  have hpadded : ∃ v after, Reads (.padded v) s after := by
    cases h with
    | lastItem hv => exact ⟨_, _, hv⟩
    | item hv _ => exact ⟨_, _, hv⟩
  obtain ⟨v, after, hv⟩ := hpadded
  cases hv with
  | padded hskip' hv _ =>
      cases hskip.eq_of_halts (halts_cons (by decide)) hskip' hv.head_value.1
      exact hv.head_value.2 rfl

/-- Nor do members begin with the end of an object. -/
theorem Reads.not_skip_members {ms : List (String × Value)} (h : Reads (.members ms) s rest) :
    ¬ Skip s ('\x7d' :: rest') := by
  intro hskip
  have hname : ∃ name after, Name s name after := by
    cases h with
    | lastMember hname _ => exact ⟨_, _, hname⟩
    | member hname _ _ => exact ⟨_, _, hname⟩
  obtain ⟨name, after, hname⟩ := hname
  cases hname with
  | colon hskip' _ _ =>
      cases hskip.eq_of_halts (halts_cons (by decide)) hskip' (halts_cons (by decide))

/-- Neither a number nor blanks go on. -/
def Stops (rest : List Char) : Prop := Halts isNumberChar rest ∧ Halts isBlank rest

theorem stops_nil : Stops [] := ⟨halts_nil, halts_nil⟩

theorem stops_comma (next : List Char) : Stops (',' :: next) :=
  ⟨halts_cons (by decide), halts_cons (by decide)⟩

theorem stops_bracket (h : rest.head? = some ']') : Stops rest := by
  obtain ⟨more, rfl⟩ := List.head?_eq_some_iff.mp h
  exact ⟨halts_cons (by decide), halts_cons (by decide)⟩

theorem stops_brace (h : rest.head? = some '\x7d') : Stops rest := by
  obtain ⟨more, rfl⟩ := List.head?_eq_some_iff.mp h
  exact ⟨halts_cons (by decide), halts_cons (by decide)⟩

/-- What is to follow a part for it to end there. -/
def Part.Ends (rest : List Char) : Part → Prop
  | value _ => Halts isNumberChar rest
  | padded _ => Stops rest
  | items _ => rest.head? = some ']'
  | members _ => rest.head? = some '\x7d'

/-- A part of the same kind is the same one, and the same is behind it. -/
def Part.Unique (s rest : List Char) : Part → Prop
  | value v => ∀ v' rest', Reads (.value v') s rest' → Part.Ends rest (.value v) →
      Part.Ends rest' (.value v') → v = v' ∧ rest = rest'
  | padded v => ∀ v' rest', Reads (.padded v') s rest' → Part.Ends rest (.padded v) →
      Part.Ends rest' (.padded v') → v = v' ∧ rest = rest'
  | items vs => ∀ vs' rest', Reads (.items vs') s rest' → Part.Ends rest (.items vs) →
      Part.Ends rest' (.items vs') → vs = vs' ∧ rest = rest'
  | members ms => ∀ ms' rest', Reads (.members ms') s rest' → Part.Ends rest (.members ms) →
      Part.Ends rest' (.members ms') → ms = ms' ∧ rest = rest'

/-- **A part is read in one way** up to where it ends. -/
theorem Reads.unique {part : Part} (h : Reads part s rest) : part.Unique s rest := by
  induction h with
  | nullWord =>
      intro v' rest' h' hends hends'
      cases h' with
      | nullWord => exact ⟨rfl, rfl⟩
      | number hn hs => exact absurd (Number.isNumberChar_of_head hn hs) (by decide)
  | trueWord =>
      intro v' rest' h' hends hends'
      cases h' with
      | trueWord => exact ⟨rfl, rfl⟩
      | number hn hs => exact absurd (Number.isNumberChar_of_head hn hs) (by decide)
  | falseWord =>
      intro v' rest' h' hends hends'
      cases h' with
      | falseWord => exact ⟨rfl, rfl⟩
      | number hn hs => exact absurd (Number.isNumberChar_of_head hn hs) (by decide)
  | @number m s rest hm hs =>
      intro v' rest' h' hends hends'
      cases h' with
      | @number n s rest' hn hs' =>
          obtain ⟨htext, rfl⟩ := append_inj_of_halts (fun _ => Number.isNumberChar_of_mem hm)
            (fun _ => Number.isNumberChar_of_mem hn) hends hends' (hs.symm.trans hs')
          rw [Number.eq_of_text_eq hm hn htext]
          exact ⟨rfl, rfl⟩
      | _ => exact absurd (Number.isNumberChar_of_head hm hs) (by decide)
  | string hbody =>
      intro v' rest' h' hends hends'
      cases h' with
      | string hbody' =>
          obtain ⟨rfl, rfl⟩ := hbody.unique hbody'
          exact ⟨rfl, rfl⟩
      | number hn hs => exact absurd (Number.isNumberChar_of_head hn hs) (by decide)
  | emptyArray hskip =>
      intro v' rest' h' hends hends'
      cases h' with
      | emptyArray hskip' =>
          cases hskip.eq_of_halts (halts_cons (by decide)) hskip' (halts_cons (by decide))
          exact ⟨rfl, rfl⟩
      | array hitems => exact absurd hskip hitems.not_skip_items
      | number hn hs => exact absurd (Number.isNumberChar_of_head hn hs) (by decide)
  | array hitems ih =>
      intro v' rest' h' hends hends'
      cases h' with
      | emptyArray hskip => exact absurd hskip hitems.not_skip_items
      | array hitems' =>
          obtain ⟨rfl, hrest⟩ := ih _ _ hitems' rfl rfl
          exact ⟨rfl, List.tail_eq_of_cons_eq hrest⟩
      | number hn hs => exact absurd (Number.isNumberChar_of_head hn hs) (by decide)
  | emptyObject hskip =>
      intro v' rest' h' hends hends'
      cases h' with
      | emptyObject hskip' =>
          cases hskip.eq_of_halts (halts_cons (by decide)) hskip' (halts_cons (by decide))
          exact ⟨rfl, rfl⟩
      | object hmembers => exact absurd hskip hmembers.not_skip_members
      | number hn hs => exact absurd (Number.isNumberChar_of_head hn hs) (by decide)
  | object hmembers ih =>
      intro v' rest' h' hends hends'
      cases h' with
      | emptyObject hskip => exact absurd hskip hmembers.not_skip_members
      | object hmembers' =>
          obtain ⟨rfl, hrest⟩ := ih _ _ hmembers' rfl rfl
          exact ⟨rfl, List.tail_eq_of_cons_eq hrest⟩
      | number hn hs => exact absurd (Number.isNumberChar_of_head hn hs) (by decide)
  | padded hskip hv hafter ih =>
      intro v' rest' h' hends hends'
      cases h' with
      | padded hskip' hv' hafter' =>
          cases hskip.eq_of_halts hv.head_value.1 hskip' hv'.head_value.1
          obtain ⟨rfl, rfl⟩ := ih _ _ hv' (hafter.halts hends.1) (hafter'.halts hends'.1)
          exact ⟨rfl, hafter.eq_of_halts hends.2 hafter' hends'.2⟩
  | lastItem hv ih =>
      intro vs' rest' h' hends hends'
      cases h' with
      | lastItem hv' =>
          obtain ⟨rfl, hrest⟩ := ih _ _ hv' (stops_bracket hends) (stops_bracket hends')
          exact ⟨rfl, hrest⟩
      | item hv' _ =>
          obtain ⟨-, rfl⟩ := ih _ _ hv' (stops_bracket hends) (stops_comma _)
          cases hends
  | item hv hvs ih ihs =>
      intro vs' rest' h' hends hends'
      cases h' with
      | lastItem hv' =>
          obtain ⟨-, rfl⟩ := ih _ _ hv' (stops_comma _) (stops_bracket hends')
          cases hends'
      | item hv' hvs' =>
          obtain ⟨rfl, hnext⟩ := ih _ _ hv' (stops_comma _) (stops_comma _)
          cases hnext
          obtain ⟨rfl, hrest⟩ := ihs _ _ hvs' hends hends'
          exact ⟨rfl, hrest⟩
  | lastMember hname hv ih =>
      intro ms' rest' h' hends hends'
      cases h' with
      | lastMember hname' hv' =>
          obtain ⟨rfl, rfl⟩ := hname.unique hname'
          obtain ⟨rfl, hrest⟩ := ih _ _ hv' (stops_brace hends) (stops_brace hends')
          exact ⟨rfl, hrest⟩
      | member hname' hv' _ =>
          obtain ⟨rfl, rfl⟩ := hname.unique hname'
          obtain ⟨-, rfl⟩ := ih _ _ hv' (stops_brace hends) (stops_comma _)
          cases hends
  | member hname hv hms ih ihs =>
      intro ms' rest' h' hends hends'
      cases h' with
      | lastMember hname' hv' =>
          obtain ⟨rfl, rfl⟩ := hname.unique hname'
          obtain ⟨-, rfl⟩ := ih _ _ hv' (stops_comma _) (stops_brace hends')
          cases hends'
      | member hname' hv' hms' =>
          obtain ⟨rfl, rfl⟩ := hname.unique hname'
          obtain ⟨rfl, hnext⟩ := ih _ _ hv' (stops_comma _) (stops_comma _)
          cases hnext
          obtain ⟨rfl, hrest⟩ := ihs _ _ hms' hends hends'
          exact ⟨rfl, hrest⟩

/-- **A text is a document of one value at most.** -/
theorem IsDocument.unique {text : List Char} {v v' : Value} (h : IsDocument text v)
    (h' : IsDocument text v') : v = v' :=
  (Reads.unique h v' [] h' stops_nil stops_nil).1

end Json

end LoxLexer
