import LoxLexer.Proofs.Places
import LoxLexer.Text.Runs

/-!
# Putting in all arguments at once

A template is filled argument by argument, and each pass reads what the passes before it have
written. What comes out is nevertheless the template with all arguments put in at once
(`FilledAtOnce`), as long as no argument but the last is able to make up a place for a later one,
either by itself or together with what stands around it.

An argument without braces can only do so from between the braces of the template, where a place
has digits and nothing else. A character that is no digit rules that out (`Inert`). So a pass leaves
the places of the later arguments as they are and makes no new ones (`Substituted.pass`).
-/

set_option autoImplicit false

namespace LoxLexer

/-! ## Definitions -/

/-- **The result is the text with the values put in at once**, the first of them at the places
numbered `first`. What is put in is not looked at again, and all else is left as it is. -/
inductive Substituted (first : Nat) (values : List (List Char)) :
    List Char → List Char → Prop where
  | nil : Substituted first values [] []
  | place {index : Nat} {value text result : List Char} (hvalue : values[index]? = some value)
      (rest : Substituted first values text result) :
      Substituted first values (placeholder (first + index) ++ text) (value ++ result)
  | other {c : Char} {text result : List Char}
      (hnone : ∀ index < values.length, ¬ placeholder (first + index) <+: c :: text)
      (rest : Substituted first values text result) :
      Substituted first values (c :: text) (c :: result)

/-- **The value makes up no place**, whatever stands around it. -/
structure Inert (value : List Char) : Prop where
  opening_not_mem : '\x7b' ∉ value
  closing_not_mem : '\x7d' ∉ value
  exists_not_digit : ∃ c ∈ value, c.isDigit = false

/-- **The template is filled as if at once**: there is one way to put the arguments in, and it gives
what filling the template gives. -/
def FilledAtOnce (template : Template) (arguments : List String) : Prop :=
  ∀ result : String, Substituted 0 (arguments.map String.toList) template.wording.toList
    result.toList ↔ result = template.fill arguments

/-! ## Places -/

variable {first index number : Nat} {word value text result rest digits : List Char}
  {values : List (List Char)}

theorem placeholder_append (index : Nat) (rest : List Char) :
    placeholder index ++ rest = '\x7b' :: (Nat.toDigits 10 index ++ '\x7d' :: rest) := by
  simp [placeholder]

theorem placeholder_ne_nil (index : Nat) : placeholder index ≠ [] := List.cons_ne_nil _ _

/-- The closing brace is where the digits end, so a place is told from what is behind it. -/
theorem placeholder_append_inj (h : placeholder index ++ rest = placeholder number ++ text) :
    index = number ∧ rest = text := by
  rw [placeholder_append, placeholder_append] at h
  exact toDigits_append_cons_inj (by decide) (List.tail_eq_of_cons_eq h)

theorem not_placeholder_prefix_of_ne {c : Char} (hc : c ≠ '\x7b') (rest : List Char) :
    ¬ placeholder index <+: c :: rest := by
  rintro ⟨behind, h⟩
  rw [placeholder_append] at h
  exact hc (List.head_eq_of_cons_eq h).symm

/-! ## One pass -/

theorem replaceAll_of_starts (hword : word ≠ []) (value rest : List Char) :
    replaceAll word value (word ++ rest) = value ++ replaceAll word value rest := by
  obtain ⟨c, more, rfl⟩ := List.exists_cons_of_ne_nil hword
  rw [List.cons_append, replaceAll_cons, if_pos (by simp)]
  simp

theorem replaceAll_of_not_starts {c : Char} (h : ¬ word <+: c :: rest) (value : List Char) :
    replaceAll word value (c :: rest) = c :: replaceAll word value rest := by
  rw [replaceAll_cons, if_neg (by simpa using h)]

/-- A pass goes over a text without opening braces. -/
theorem replaceAll_append_of_not_mem (h : '\x7b' ∉ text) (value rest : List Char) :
    replaceAll (placeholder index) value (text ++ rest) =
      text ++ replaceAll (placeholder index) value rest := by
  induction text with
  | nil => rfl
  | cons c text ih =>
      have hc : c ≠ '\x7b' := (List.ne_of_not_mem_cons h).symm
      rw [List.cons_append, replaceAll_of_not_starts (not_placeholder_prefix_of_ne hc _),
        ih (List.not_mem_of_not_mem_cons h), List.cons_append]

/-- A pass goes over the places of other arguments. -/
theorem replaceAll_placeholder_of_ne (h : index ≠ number) (value rest : List Char) :
    replaceAll (placeholder index) value (placeholder number ++ rest) =
      placeholder number ++ replaceAll (placeholder index) value rest := by
  have hother : ¬ placeholder index <+: placeholder number ++ rest := by
    rintro ⟨behind, hsame⟩
    exact h (placeholder_append_inj hsame).1
  have hdigits : '\x7b' ∉ Nat.toDigits 10 number ++ ['\x7d'] := by
    intro hmem
    rcases List.mem_append.mp hmem with hdigit | hclosing
    · exact absurd (isDigit_of_mem_toDigits hdigit) (by decide)
    · exact absurd (List.mem_singleton.mp hclosing) (by decide)
  have hsplit (rest : List Char) : placeholder number ++ rest =
      '\x7b' :: ((Nat.toDigits 10 number ++ ['\x7d']) ++ rest) := by
    simp [placeholder]
  rw [hsplit] at hother
  rw [hsplit, hsplit, replaceAll_of_not_starts hother, replaceAll_append_of_not_mem hdigits]

/-! ## No new places -/

/-- What an inert value begins with is not the inside of a place. -/
theorem Inert.not_prefix_append (hvalue : Inert value) (hdigits : ∀ d ∈ digits, d.isDigit = true)
    (rest : List Char) : ¬ digits ++ ['\x7d'] <+: value ++ rest := by
  obtain ⟨-, hclosing, c, hmem, hc⟩ := hvalue
  -- by induction on the value, digit by digit, up to the character that is none
  induction value generalizing digits with
  | nil => cases hmem
  | cons v value ih =>
      cases digits with
      | nil =>
          intro hfront
          exact List.ne_of_not_mem_cons hclosing (List.cons_prefix_cons.mp hfront).1
      | cons d digits =>
          obtain ⟨hd, hdigits⟩ := List.forall_mem_cons.mp hdigits
          intro hfront
          obtain ⟨rfl, hbehind⟩ := List.cons_prefix_cons.mp hfront
          have hlater : c ∈ value := by
            rcases List.mem_cons.mp hmem with rfl | hlater
            · exact absurd hd (by simp [hc])
            · exact hlater
          exact ih hdigits (List.not_mem_of_not_mem_cons hclosing) hlater hbehind

/-- **A pass makes no new places**: the inside of one that is in the result was in the text. -/
theorem Inert.prefix_of_prefix_replaceAll (hvalue : Inert value)
    (hdigits : ∀ d ∈ digits, d.isDigit = true)
    (h : digits ++ ['\x7d'] <+: replaceAll word value text) : digits ++ ['\x7d'] <+: text := by
  induction digits generalizing text with
  | nil =>
      cases text with
      | nil => rwa [replaceAll_nil] at h
      | cons c rest =>
          rw [replaceAll_cons] at h
          split at h
          · exact absurd h (hvalue.not_prefix_append hdigits _)
          · exact List.cons_prefix_cons.mpr ⟨(List.cons_prefix_cons.mp h).1, List.nil_prefix⟩
  | cons d digits ih =>
      cases text with
      | nil => rwa [replaceAll_nil] at h
      | cons c rest =>
          rw [replaceAll_cons] at h
          split at h
          · exact absurd h (hvalue.not_prefix_append hdigits _)
          · obtain ⟨rfl, hbehind⟩ := List.cons_prefix_cons.mp h
            have hrest := ih (List.forall_mem_cons.mp hdigits).2 hbehind
            exact List.cons_prefix_cons.mpr ⟨rfl, hrest⟩

/-! ## Substitution -/

/-- A text without opening braces is left as it is. -/
theorem Substituted.append_of_not_mem (hmem : '\x7b' ∉ value)
    (h : Substituted first values text result) :
    Substituted first values (value ++ text) (value ++ result) := by
  induction value with
  | nil => exact h
  | cons c value ih =>
      have hc : c ≠ '\x7b' := (List.ne_of_not_mem_cons hmem).symm
      exact .other (fun index _ => not_placeholder_prefix_of_ne hc _)
        (ih (List.not_mem_of_not_mem_cons hmem))

/-- Without values all is left as it is. -/
theorem substituted_none_iff : Substituted first [] text result ↔ result = text := by
  constructor
  · intro h
    induction h with
    | nil => rfl
    | place hvalue => cases hvalue
    | other _ _ ih => rw [ih]
  · rintro rfl
    induction result with
    | nil => exact .nil
    | cons c result ih => exact .other nofun ih

/-- There is a way to put the values in. -/
theorem exists_substituted (first : Nat) (values : List (List Char)) (text : List Char) :
    ∃ result, Substituted first values text result := by
  -- a place is not empty, so what is behind it is shorter
  match text with
  | [] => exact ⟨[], .nil⟩
  | c :: rest =>
      by_cases hplace : ∃ index < values.length, placeholder (first + index) <+: c :: rest
      · obtain ⟨index, hlt, behind, htext⟩ := hplace
        have hshorter : behind.length < (c :: rest).length := by
          rw [← htext, placeholder_append, List.length_cons, List.length_append, List.length_cons]
          omega
        obtain ⟨result, hresult⟩ := exists_substituted first values behind
        rw [← htext]
        exact ⟨_, .place (List.getElem?_eq_getElem hlt) hresult⟩
      · obtain ⟨result, hresult⟩ := exists_substituted first values rest
        exact ⟨_, .other (fun index hlt hfront => hplace ⟨index, hlt, hfront⟩) hresult⟩
termination_by text.length
decreasing_by
  · exact hshorter
  · exact Nat.lt_succ_self rest.length

/-- **One pass** puts the first value in, and leaves what is left to do for the other values. If
there are none, the value may be any. -/
theorem Substituted.pass (hinert : values ≠ [] → Inert value)
    (h : Substituted first (value :: values) text result) :
    Substituted (first + 1) values (replaceAll (placeholder first) value text) result := by
  have hnumber (index : Nat) : first + (index + 1) = first + 1 + index := by omega
  induction h with
  | nil =>
      rw [replaceAll_nil]
      exact .nil
  | @place index put text result hput _ ih =>
      cases index with
      | zero =>
          cases hput
          show Substituted _ _ (replaceAll _ value (placeholder first ++ text)) _
          rw [replaceAll_of_starts (placeholder_ne_nil first)]
          cases values with
          | nil => exact substituted_none_iff.mpr (by rw [substituted_none_iff.mp ih])
          | cons next values =>
              exact ih.append_of_not_mem (hinert (List.cons_ne_nil _ _)).opening_not_mem
      | succ index =>
          have hput' : values[index]? = some put := hput
          rw [replaceAll_placeholder_of_ne (by omega), hnumber index]
          exact .place hput' ih
  | @other c text result hnone _ ih =>
      have hfirst : ¬ placeholder first <+: c :: text := hnone 0 (Nat.zero_lt_succ _)
      rw [replaceAll_of_not_starts hfirst]
      refine .other (fun index hlt hfront => ?_) ih
      -- a place of a later value that stands here after the pass stood here before it
      have hvalue := hinert (List.ne_nil_of_length_pos (Nat.zero_lt_of_lt hlt))
      refine hnone (index + 1) (Nat.succ_lt_succ hlt) ?_
      rw [hnumber index]
      have hsplit : placeholder (first + 1 + index) =
          '\x7b' :: (Nat.toDigits 10 (first + 1 + index) ++ ['\x7d']) := rfl
      rw [hsplit, List.cons_prefix_cons] at hfront ⊢
      exact ⟨hfront.1, hvalue.prefix_of_prefix_replaceAll
        (fun _ hdigit => isDigit_of_mem_toDigits hdigit) hfront.2⟩

/-- **All passes** together put all values in. -/
theorem Substituted.eq_fillFrom (hinert : ∀ value ∈ values.dropLast, Inert value)
    (h : Substituted first values text result) : result = fillFrom first text values := by
  induction values generalizing first text with
  | nil => exact substituted_none_iff.mp h
  | cons value values ih =>
      cases values with
      | nil => exact ih (List.forall_mem_nil _) (h.pass fun hne => absurd rfl hne)
      | cons next values =>
          obtain ⟨hvalue, hlater⟩ := List.forall_mem_cons.mp hinert
          exact ih hlater (h.pass fun _ => hvalue)

/-! ## Templates -/

theorem filledAtOnce_of_inert {template : Template} {arguments : List String}
    (h : ∀ argument ∈ arguments.dropLast, Inert argument.toList) :
    FilledAtOnce template arguments := by
  have hinert : ∀ value ∈ (arguments.map String.toList).dropLast, Inert value := by
    rw [← List.map_dropLast]
    exact List.forall_mem_map.mpr h
  intro result
  rw [Template.fill, ← String.toList_inj, String.toList_ofList]
  constructor
  · exact fun hresult => hresult.eq_fillFrom hinert
  · intro hfill
    obtain ⟨made, hmade⟩ := exists_substituted 0 (arguments.map String.toList)
      template.wording.toList
    rw [hfill, ← hmade.eq_fillFrom hinert]
    exact hmade

/-- **The messages of a scan**: the one about an unexpected character takes the character, and the
one about a string that is not closed takes nothing. -/
theorem ofTemplate_of_diagnostic? {l : Located} {d : Diagnostic} (h : l.diagnostic? = some d) :
    (∃ c : Char, d = .ofTemplate .unexpectedCharacter [String.singleton c] d.line d.span) ∨
      d = .ofTemplate .unterminatedString [] d.line d.span := by
  obtain ⟨piece, start⟩ := l
  cases piece with
  | stray c =>
      cases h
      exact Or.inl ⟨c, rfl⟩
  | unclosed body =>
      cases h
      exact Or.inr rfl
  | _ => cases h

/-- **Templates are filled as if at once**, unless an argument in front of the last one may make up
a place. There is none if there is one argument only, and a scan puts one character into the one
template and nothing into the other. -/
theorem templates_filledAtOnce :
    (∀ (template : Template) (arguments : List String), arguments.length ≤ 1 ∨
        (∀ argument ∈ arguments.dropLast, Inert argument.toList) →
      FilledAtOnce template arguments) ∧
    ∀ source, ∀ d ∈ (lex source).diagnostics,
      (∃ c : Char, d = .ofTemplate .unexpectedCharacter [String.singleton c] d.line d.span) ∨
        d = .ofTemplate .unterminatedString [] d.line d.span := by
  constructor
  · rintro template arguments (hlength | hinert)
    · have hnone : arguments.dropLast = [] := by
        rw [← List.length_eq_zero_iff, List.length_dropLast]
        omega
      exact filledAtOnce_of_inert (by simp [hnone])
    · exact filledAtOnce_of_inert hinert
  · intro source
    rw [lex_eq]
    exact forall_diagnostics fun l _ d hfault => ofTemplate_of_diagnostic? hfault

/-- Braces around a place, an argument that is a place of another one, and numbers that are none;
and both messages of a scan. -/
theorem filledAtOnce_braces :
    let template : Template := ⟨7, "\x7b\x7b0\x7d\x7d \x7b1\x7d\x7b01\x7d \x7b2\x7d"⟩
    (∀ argument ∈ ["0x", "\x7b0\x7d"].dropLast, Inert argument.toList) ∧
      FilledAtOnce template ["0x", "\x7b0\x7d"] ∧
      template.fill ["0x", "\x7b0\x7d"] = "\x7b0x\x7d \x7b0\x7d\x7b01\x7d \x7b2\x7d" ∧
      FilledAtOnce .unexpectedCharacter ["#"] ∧
      (lex "#\"").diagnostics = [.ofTemplate .unexpectedCharacter ["#"] 1 ⟨0, 1⟩,
        .ofTemplate .unterminatedString [] 1 ⟨1, 1⟩] := by
  intro template
  have hinert : ∀ argument ∈ ["0x", "\x7b0\x7d"].dropLast, Inert argument.toList :=
    List.forall_mem_singleton.mpr ⟨by decide, by decide, 'x', by decide, by decide⟩
  exact ⟨hinert, templates_filledAtOnce.1 template _ (Or.inr hinert), by decide +kernel,
    templates_filledAtOnce.1 .unexpectedCharacter ["#"] (Or.inl (Nat.le_refl 1)), by decide +kernel⟩

/-- A number that is put in between two braces is taken for the place of a later argument. -/
example : (⟨7, "\x7b\x7b0\x7d\x7d"⟩ : Template).fill ["1", "a"] = "a" := by decide +kernel

end LoxLexer
