import LoxLexer.Json.Basic
import LoxLexer.Proofs.JsonGrammar

/-!
# Compact text is a document

The text that is written for a JSON value is a document of that value, and no character of it is a
control character (`Json.written_text`). A number stands for the fraction that its digits print,
`Binary64.printed`, which is read as the number again (`ofRat_printed`).
-/

set_option autoImplicit false

namespace LoxLexer

/-! ## What values stand for -/

/-- The fraction that a number is printed as, without its sign. -/
def Binary64.printed (x : Binary64) : ℚ := if x.isZero then 0 else (x.shortest .toEven).toRat

/-- **What is printed for a finite number is read as that number**, the sign left out. -/
theorem Binary64.ofRat_printed {x : Binary64} (hfinite : x.isFinite = true) :
    ofRat x.printed = { x with negative := false } := by
  rw [printed]
  split
  · rename_i hzero
    rw [ofRat_zero]
    exact ext_of_magnitude rfl (of_decide_eq_true hzero).symm
  · exact ofRat_shortest hfinite .toEven

namespace Json

mutual

/-- The value that the text of a JSON value stands for. A number that is not finite is written as
`null`. -/
def value : Json → Value
  | null => .null
  | natural n => .number false n
  | number x => if x.isFinite then .number x.negative x.printed else .null
  | string s => .string s
  | array items => .array (values items)
  | object members => .object (memberValues members)

def values : List Json → List Value
  | [] => []
  | item :: rest => item.value :: values rest

def memberValues : List (String × Json) → List (String × Value)
  | [] => []
  | (name, item) :: rest => (name, item.value) :: memberValues rest

end

/-- A text without control characters. -/
def Plain (text : String) : Prop := ∀ c ∈ text.toList, 0x20 ≤ c.toNat

/-- **The text is plain and holds the part**, whatever is behind it. -/
structure Written (text : String) (part : Part) : Prop where
  plain : Plain text
  reads : ∀ rest, Reads part (text.toList ++ rest) rest

/-! ## Adding to a text -/

mutual

/-- Writing adds the same text to whatever has been written. -/
theorem write_eq : (v : Json) → (out : String) → write out v = out ++ write "" v
  | null, out => by simp [write]
  | natural n, out => by simp [write]
  | number x, out => by simp [write]
  | string s, out => by simp [write]
  | array items, out => by
      rw [write, write, writeItems_eq items (out ++ "["), writeItems_eq items ("" ++ "[")]
      simp [String.append_assoc]
  | object members, out => by
      rw [write, write, writeMembers_eq members (out ++ "\x7b"),
        writeMembers_eq members ("" ++ "\x7b")]
      simp [String.append_assoc]

theorem writeItems_eq : (items : List Json) → (out : String) →
    writeItems out items = out ++ writeItems "" items
  | [], out => by simp [writeItems]
  | [item], out => by
      rw [writeItems, writeItems]
      exact write_eq item out
  | item :: next :: rest, out => by
      rw [writeItems, writeItems, writeItems_eq (next :: rest), write_eq item out,
        writeItems_eq (next :: rest) (write "" item ++ ",")]
      simp [String.append_assoc]

theorem writeMembers_eq : (members : List (String × Json)) → (out : String) →
    writeMembers out members = out ++ writeMembers "" members
  | [], out => by simp [writeMembers]
  | [(name, item)], out => by
      rw [writeMembers, writeMembers, write_eq item, write_eq item ("" ++ quoted name ++ ":")]
      simp [String.append_assoc]
  | (name, item) :: next :: rest, out => by
      rw [writeMembers, writeMembers, writeMembers_eq (next :: rest), write_eq item,
        writeMembers_eq (next :: rest) (write ("" ++ quoted name ++ ":") item ++ ","),
        write_eq item ("" ++ quoted name ++ ":")]
      simp [String.append_assoc]

end

theorem text_array (items : List Json) :
    (array items).text = "[" ++ writeItems "" items ++ "]" := by
  rw [text, write, writeItems_eq]
  simp

theorem text_object (members : List (String × Json)) :
    (object members).text = "\x7b" ++ writeMembers "" members ++ "\x7d" := by
  rw [text, write, writeMembers_eq]
  simp

theorem writeItems_cons (item next : Json) (rest : List Json) :
    writeItems "" (item :: next :: rest) = item.text ++ "," ++ writeItems "" (next :: rest) := by
  rw [writeItems, writeItems_eq]
  rfl

theorem writeMembers_singleton (name : String) (item : Json) :
    writeMembers "" [(name, item)] = quoted name ++ ":" ++ item.text := by
  rw [writeMembers, write_eq, text]
  simp

theorem writeMembers_cons (name : String) (item : Json) (next : String × Json)
    (rest : List (String × Json)) :
    writeMembers "" ((name, item) :: next :: rest) =
      quoted name ++ ":" ++ item.text ++ "," ++ writeMembers "" (next :: rest) := by
  rw [writeMembers, writeMembers_eq, write_eq item, text]
  simp [String.append_assoc]

/-! ## Plain texts -/

theorem Plain.append {s t : String} (hs : Plain s) (ht : Plain t) : Plain (s ++ t) := by
  intro c hc
  rw [String.toList_append] at hc
  rcases List.mem_append.mp hc with h | h
  · exact hs c h
  · exact ht c h

/-! ## Strings -/

theorem hexDigit?_digitChar {n : Nat} (h : n < 16) : hexDigit? (Nat.digitChar n) = some n := by
  have hall : ∀ k : Fin 16, hexDigit? (Nat.digitChar k) = some k.val := by decide
  exact hall ⟨n, h⟩

/-- A control character is written as its code unit. -/
theorem codeUnit?_digitChar {n : Nat} (h : n < 0x20) :
    codeUnit? '0' '0' (Nat.digitChar (n / 16)) (Nat.digitChar (n % 16)) = some n := by
  have hzero : hexDigit? '0' = some 0 := by decide
  have hhigh := hexDigit?_digitChar (show n / 16 < 16 by omega)
  have hlow := hexDigit?_digitChar (show n % 16 < 16 by omega)
  rw [codeUnit?, hzero, hhigh, hlow]
  show some (((0 * 16 + 0) * 16 + n / 16) * 16 + n % 16) = some n
  congr 1
  omega

/-- A character is escaped by a letter, escaped by its code unit, or written as it is. -/
theorem escape_cases (c : Char) :
    (∃ letter, escape c = ['\\', letter] ∧ shortEscape? letter = some c ∧ 0x20 ≤ letter.toNat) ∨
    (c.toNat < 0x20 ∧ escape c =
      ['\\', 'u', '0', '0', Nat.digitChar (c.toNat / 16), Nat.digitChar (c.toNat % 16)]) ∨
    (c ≠ '"' ∧ c ≠ '\\' ∧ 0x20 ≤ c.toNat ∧ escape c = [c]) := by
  by_cases hletter : c = '"' ∨ c = '\\' ∨ c = '\x08' ∨ c = '\t' ∨ c = '\n' ∨ c = '\x0c' ∨ c = '\r'
  · refine Or.inl ?_
    rcases hletter with rfl | rfl | rfl | rfl | rfl | rfl | rfl
    all_goals exact ⟨_, rfl, rfl, by decide⟩
  · have hescape : escape c = if c.toNat < 0x20 then
        ['\\', 'u', '0', '0', Nat.digitChar (c.toNat / 16), Nat.digitChar (c.toNat % 16)]
        else [c] := by
      simp only [not_or] at hletter
      simp only [escape, hletter, if_false]
    by_cases hcontrol : c.toNat < 0x20
    · exact Or.inr (Or.inl ⟨hcontrol, hescape.trans (if_pos hcontrol)⟩)
    · refine Or.inr (Or.inr ⟨?_, ?_, Nat.not_lt.mp hcontrol, hescape.trans (if_neg hcontrol)⟩)
      · exact fun hquote => hletter (Or.inl hquote)
      · exact fun hslash => hletter (Or.inr (Or.inl hslash))

/-- **An escaped character is read as that character.** -/
theorem body_escape (c : Char) {s body rest : List Char} (h : Body s body rest) :
    Body (escape c ++ s) (c :: body) rest := by
  rcases escape_cases c with ⟨letter, hescape, hletter, -⟩ | ⟨hcontrol, hescape⟩ |
    ⟨hquote, hslash, hplain, hescape⟩
  · rw [hescape]
    exact .short hletter h
  · have hunit := Body.unit (codeUnit?_digitChar hcontrol) (Or.inl (by omega)) h
    rw [Char.ofNat_toNat] at hunit
    rw [hescape]
    exact hunit
  · rw [hescape]
    exact .plain hquote hslash hplain h

theorem plain_escape (c : Char) : ∀ d ∈ escape c, 0x20 ≤ d.toNat := by
  rcases escape_cases c with ⟨letter, hescape, -, hletter⟩ | ⟨hcontrol, hescape⟩ |
    ⟨-, -, hplain, hescape⟩
  · rw [hescape]
    simpa using hletter
  · have hdigit (n : Nat) (hn : n < 16) : 0x20 ≤ (Nat.digitChar n).toNat := by
      have hall : ∀ k : Fin 16, 0x20 ≤ (Nat.digitChar k).toNat := by decide
      exact hall ⟨n, hn⟩
    have hhigh := hdigit (c.toNat / 16) (by omega)
    have hlow := hdigit (c.toNat % 16) (by omega)
    rw [hescape]
    simp [hhigh, hlow]
  · rw [hescape]
    simpa using hplain

theorem toList_quoted (s : String) :
    (quoted s).toList = '"' :: (s.toList.flatMap escape ++ ['"']) := by
  simp [quoted]

theorem plain_quoted (s : String) : Plain (quoted s) := by
  intro c hc
  rw [toList_quoted] at hc
  rcases List.mem_cons.mp hc with rfl | hbehind
  · decide
  · rcases List.mem_append.mp hbehind with hescaped | hclose
    · obtain ⟨d, -, hd⟩ := List.mem_flatMap.mp hescaped
      exact plain_escape d c hd
    · rw [List.mem_singleton.mp hclose]
      decide

/-- **Behind its quote, a quoted string is read as the string.** -/
theorem body_quoted (text rest : List Char) :
    Body (text.flatMap escape ++ '"' :: rest) text rest := by
  induction text with
  | nil => exact .close
  | cons c text ih =>
      rw [List.flatMap_cons, List.append_assoc]
      exact body_escape c ih

theorem written_string (s : String) : Written (quoted s) (.value (.string s)) where
  plain := plain_quoted s
  reads rest := by
    have hbody := Reads.string (body_quoted s.toList rest)
    rw [String.ofList_toList] at hbody
    rw [toList_quoted, List.cons_append, List.append_assoc]
    exact hbody

theorem name_quoted (name : String) (rest : List Char) :
    Name ((quoted name ++ ":").toList ++ rest) name rest := by
  have hname := Name.colon .none (body_quoted name.toList (':' :: rest)) .none
  rw [String.ofList_toList] at hname
  rw [String.toList_append, toList_quoted, List.append_assoc, List.cons_append, List.append_assoc]
  exact hname

/-! ## Numbers -/

theorem le_of_isNumberChar {c : Char} (h : isNumberChar c = true) : 0x20 ≤ c.toNat := by
  rw [isNumberChar, Bool.or_eq_true] at h
  rcases h with hdigit | hother
  · simp only [Char.isDigit, Bool.and_eq_true, decide_eq_true_eq] at hdigit
    have hlow : 48 ≤ c.toNat := UInt32.le_iff_toNat_le.mp hdigit.1
    omega
  · simp only [List.contains_eq_mem, List.mem_cons, List.not_mem_nil, or_false,
      decide_eq_true_eq] at hother
    rcases hother with rfl | rfl | rfl | rfl | rfl <;> decide

/-- **What is written as a number is read as that number.** -/
theorem written_number {n : Number} {s : String} (h : n.WellFormed) (hs : s.toList = n.text) :
    Written s (.value (.number n.negative n.magnitude)) where
  plain c hc := le_of_isNumberChar (Number.isNumberChar_of_mem h (hs ▸ hc))
  reads rest := by
    rw [hs]
    exact .number h rfl

/-- A numeral is a number without an exponent. -/
theorem wellFormed_of_numeral {numeral : Numeral} (negative : Bool) (h : numeral.WellFormed)
    (hzero : numeral.NoLeadingZero) : Number.WellFormed ⟨negative, numeral, none⟩ where
  numeral := h
  noLeadingZero := hzero
  exponent := nofun

theorem magnitude_of_numeral (negative : Bool) (numeral : Numeral) :
    Number.magnitude ⟨negative, numeral, none⟩ = numeral.toRat := by
  rw [Number.magnitude]
  exact mul_one _

theorem text_of_numeral (negative : Bool) (numeral : Numeral) :
    Number.text ⟨negative, numeral, none⟩ = Number.sign negative ++ numeral.text := by
  rw [Number.text]
  exact congrArg _ (List.append_nil _)

theorem written_natural (n : Nat) : Written n.repr (.value (.number false n)) := by
  have hnumber := wellFormed_of_numeral false (Numeral.wellFormed_ofNat n)
    (Numeral.noLeadingZero_ofNat n)
  have hs : n.repr.toList = Number.text ⟨false, .ofNat n, none⟩ := by
    rw [text_of_numeral, Numeral.text_ofNat]
    rfl
  have hwritten := written_number hnumber hs
  rwa [magnitude_of_numeral, Numeral.toRat_ofNat] at hwritten

/-- The number of a decimal in scientific notation. -/
def scientificNumber (negative : Bool) (d : Decimal) : Number :=
  let places := (Nat.toDigits 10 d.coefficient).length - 1
  { negative := negative
    numeral := if places = 0 then .ofNat d.coefficient else .fixed d.coefficient places
    exponent := some
      { mark := 'e'
        sign := [if d.leadingExponent < 0 then '-' else '+']
        digits := Nat.toDigits 10 d.leadingExponent.natAbs } }

theorem wellFormed_scientificNumber (negative : Bool) (d : Decimal) :
    (scientificNumber negative d).WellFormed := by
  constructor
  case numeral =>
    simp only [scientificNumber]
    split
    · exact Numeral.wellFormed_ofNat _
    · exact Numeral.wellFormed_fixed (by omega)
  case noLeadingZero =>
    simp only [scientificNumber]
    split
    · exact Numeral.noLeadingZero_ofNat _
    · exact Numeral.noLeadingZero_fixed _ _
  case exponent =>
    intro e he
    cases he
    constructor
    case mark => exact Or.inl rfl
    case sign =>
      split
      · exact Or.inr (Or.inr rfl)
      · exact Or.inr (Or.inl rfl)
    case digits_ne_nil => exact Nat.toDigits_ne_nil
    case isDigit_digits => exact fun _ => isDigit_of_mem_toDigits

/-- The exponent that is written is that of the leading digit. -/
theorem value_exponent (lead : Int) :
    Exponent.value ⟨'e', [if lead < 0 then '-' else '+'], Nat.toDigits 10 lead.natAbs⟩ = lead := by
  rw [Exponent.value]
  dsimp only
  rw [Nat.ofDigitChars_ten_toDigits]
  split
  · rw [if_pos rfl]
    omega
  · rw [if_neg (by decide)]
    omega

/-- **Scientific notation** writes the decimal. -/
theorem magnitude_scientificNumber (negative : Bool) (d : Decimal) :
    (scientificNumber negative d).magnitude = d.toRat := by
  obtain ⟨places, hplaces⟩ : ∃ k, k = (Nat.toDigits 10 d.coefficient).length - 1 := ⟨_, rfl⟩
  have hnumeral : (scientificNumber negative d).numeral.toRat = d.coefficient / 10 ^ places := by
    simp only [scientificNumber, ← hplaces]
    split
    · rename_i hzero
      rw [Numeral.toRat_ofNat, hzero, pow_zero, div_one]
    · exact Numeral.toRat_fixed (by omega)
  have hexponent : ((scientificNumber negative d).exponent.map Exponent.value).getD 0 =
      d.exponent + places := by
    rw [hplaces]
    exact value_exponent d.leadingExponent
  have hne : (10 : ℚ) ^ places ≠ 0 := pow_ne_zero _ (by decide)
  rw [Number.magnitude, hnumeral, hexponent, Decimal.toRat, zpow_add₀ (by decide), zpow_natCast]
  field_simp

theorem text_scientificNumber (negative : Bool) (d : Decimal) :
    (scientificNumber negative d).text = Number.sign negative ++ d.scientific.toList := by
  have hnumeral : (scientificNumber negative d).numeral.text =
      (if (Nat.toDigits 10 d.coefficient).length - 1 = 0 then d.coefficient.repr
        else Decimal.fixed d.coefficient ((Nat.toDigits 10 d.coefficient).length - 1)).toList := by
    simp only [scientificNumber]
    split
    · exact Numeral.text_ofNat _
    · exact Numeral.text_fixed _ _
  have hexponent : (scientificNumber negative d).exponentText =
      ("e" ++ (if d.leadingExponent < 0 then "-" else "+") ++
        d.leadingExponent.natAbs.repr).toList := by
    rw [Nat.repr_eq_ofList_toDigits, String.toList_append, String.toList_ofList]
    simp only [scientificNumber, Number.exponentText, Exponent.text, Option.map_some,
      Option.getD_some]
    split <;> rfl
  rw [Number.text, hnumeral, hexponent, Decimal.scientific]
  simp [scientificNumber]

/-- A finite number without its sign. -/
theorem exists_absNumber (x : Binary64) (negative : Bool) : ∃ n : Number, n.WellFormed ∧
    n.negative = negative ∧ n.magnitude = x.printed ∧
    n.text = Number.sign negative ++ (absNumber x).toList := by
  have hnumeral (numeral : Numeral) (h : numeral.WellFormed) (hzero : numeral.NoLeadingZero)
      (hrat : numeral.toRat = x.printed) (htext : numeral.text = (absNumber x).toList) :
      ∃ n : Number, n.WellFormed ∧ n.negative = negative ∧ n.magnitude = x.printed ∧
        n.text = Number.sign negative ++ (absNumber x).toList :=
    ⟨_, wellFormed_of_numeral negative h hzero, rfl, (magnitude_of_numeral _ _).trans hrat,
      (text_of_numeral _ _).trans (congrArg _ htext)⟩
  by_cases hzero : x.isZero = true
  · refine hnumeral (.integral 0) (Numeral.wellFormed_fixed (by decide))
      (Numeral.noLeadingZero_fixed _ _) ?_ ?_
    · rw [Numeral.toRat_integral, Binary64.printed, if_pos hzero, Nat.cast_zero]
    · rw [Numeral.text_integral, absNumber, if_pos hzero]
      rfl
  · have hprinted : x.printed = (x.shortest .toEven).toRat := if_neg hzero
    by_cases hlead : -5 ≤ (x.shortest .toEven).leadingExponent ∧
        (x.shortest .toEven).leadingExponent ≤ 15
    · have htext : absNumber x = (x.shortest .toEven).positional :=
        (if_neg hzero).trans (if_pos hlead)
      refine hnumeral (x.shortest .toEven).numeral (Decimal.wellFormed_numeral _)
        (Decimal.noLeadingZero_numeral _) ?_ ?_
      · rw [Decimal.toRat_numeral, hprinted]
      · rw [Decimal.text_numeral, htext]
    · have htext : absNumber x = (x.shortest .toEven).scientific :=
        (if_neg hzero).trans (if_neg hlead)
      rw [htext, hprinted]
      exact ⟨_, wellFormed_scientificNumber negative _, rfl, magnitude_scientificNumber negative _,
        text_scientificNumber _ _⟩

theorem written_numberText {x : Binary64} (hfinite : x.isFinite = true) :
    Written (numberText x) (.value (.number x.negative x.printed)) := by
  obtain ⟨n, hn, hnegative, hmagnitude, htext⟩ := exists_absNumber x x.negative
  have hs : (numberText x).toList = n.text := by
    rw [htext, numberText, if_pos hfinite, String.toList_append, Number.sign]
    split <;> rfl
  rw [← hnegative, ← hmagnitude]
  exact written_number hn hs

/-! ## Values -/

variable {t : String} {v : Value} {vs : List Value} {ms : List (String × Value)}

theorem Written.padded (h : Written t (.value v)) : Written t (.padded v) where
  plain := h.plain
  reads rest := .padded .none (h.reads rest) .none

theorem written_null : Written "null" (.value .null) where
  plain := by simp [Plain]
  reads rest := .nullWord

theorem written_emptyArray : Written ("[" ++ "" ++ "]") (.value (.array [])) where
  plain := by simp [Plain]
  reads rest := .emptyArray .none

theorem written_emptyObject : Written ("\x7b" ++ "" ++ "\x7d") (.value (.object [])) where
  plain := by simp [Plain]
  reads rest := .emptyObject .none

theorem written_array (h : Written t (.items vs)) :
    Written ("[" ++ t ++ "]") (.value (.array vs)) where
  plain := (Plain.append (by simp [Plain]) h.plain).append (by simp [Plain])
  reads rest := by
    have hitems := Reads.array (h.reads (']' :: rest))
    simpa using hitems

theorem written_object (h : Written t (.members ms)) :
    Written ("\x7b" ++ t ++ "\x7d") (.value (.object ms)) where
  plain := (Plain.append (by simp [Plain]) h.plain).append (by simp [Plain])
  reads rest := by
    have hmembers := Reads.object (h.reads ('\x7d' :: rest))
    simpa using hmembers

theorem written_lastItem (h : Written t (.padded v)) : Written t (.items [v]) where
  plain := h.plain
  reads rest := .lastItem (h.reads rest)

theorem written_item {u : String} (h : Written t (.padded v)) (hu : Written u (.items vs)) :
    Written (t ++ "," ++ u) (.items (v :: vs)) where
  plain := (h.plain.append (by simp [Plain])).append hu.plain
  reads rest := by
    have hitem := Reads.item (h.reads (',' :: (u.toList ++ rest))) (hu.reads rest)
    simpa using hitem

theorem plain_name (name : String) : Plain (quoted name ++ ":") :=
  (plain_quoted name).append (by simp [Plain])

theorem written_lastMember (name : String) (h : Written t (.padded v)) :
    Written (quoted name ++ ":" ++ t) (.members [(name, v)]) where
  plain := (plain_name name).append h.plain
  reads rest := by
    have hmember := Reads.lastMember (name_quoted name (t.toList ++ rest)) (h.reads rest)
    simpa using hmember

theorem written_member {u : String} (name : String) (h : Written t (.padded v))
    (hu : Written u (.members ms)) :
    Written (quoted name ++ ":" ++ t ++ "," ++ u) (.members ((name, v) :: ms)) where
  plain := (((plain_name name).append h.plain).append (by simp [Plain])).append hu.plain
  reads rest := by
    have hmember := Reads.member (name_quoted name (t.toList ++ (',' :: (u.toList ++ rest))))
      (h.reads (',' :: (u.toList ++ rest))) (hu.reads rest)
    simpa using hmember

mutual

/-- **The text of a JSON value is a document of that value.** -/
theorem written_text : (v : Json) → Written v.text (.value v.value)
  | null => written_null
  | natural n => by
      have hnatural := written_natural n
      simpa [text, write, value] using hnatural
  | number x => by
      have htext : (number x).text = numberText x := by simp [text, write]
      rw [htext, value]
      split
      · rename_i hfinite
        exact written_numberText hfinite
      · rename_i hfinite
        rw [numberText, if_neg hfinite]
        exact written_null
  | string s => by
      have hstring := written_string s
      simpa [text, write, value] using hstring
  | array [] => by
      rw [text_array, value]
      exact written_emptyArray
  | array (item :: rest) => by
      have hitems := written_items (item :: rest) (List.cons_ne_nil item rest)
      rw [text_array, value]
      exact written_array hitems
  | object [] => by
      rw [text_object, value]
      exact written_emptyObject
  | object (member :: rest) => by
      have hmembers := written_members (member :: rest) (List.cons_ne_nil member rest)
      rw [text_object, value]
      exact written_object hmembers

theorem written_items : (items : List Json) → items ≠ [] →
    Written (writeItems "" items) (.items (values items))
  | [], hne => absurd rfl hne
  | [item], _ => by
      have hitem := written_text item
      rw [values, values, writeItems]
      exact written_lastItem hitem.padded
  | item :: next :: rest, _ => by
      have hitem := written_text item
      have hitems := written_items (next :: rest) (List.cons_ne_nil next rest)
      rw [values, writeItems_cons]
      exact written_item hitem.padded hitems

theorem written_members : (members : List (String × Json)) → members ≠ [] →
    Written (writeMembers "" members) (.members (memberValues members))
  | [], hne => absurd rfl hne
  | [(name, item)], _ => by
      have hitem := written_text item
      rw [memberValues, memberValues, writeMembers_singleton]
      exact written_lastMember name hitem.padded
  | (name, item) :: next :: rest, _ => by
      have hitem := written_text item
      have hmembers := written_members (next :: rest) (List.cons_ne_nil next rest)
      rw [memberValues, writeMembers_cons]
      exact written_member name hitem.padded hmembers

end

/-- **The text is a document of the value and of no other.** -/
theorem isDocument_text (v : Json) : IsDocument v.text.toList v.value := by
  have hreads := (written_text v).padded.reads []
  rwa [List.append_nil] at hreads

end Json

end LoxLexer
