import LoxLexer.Proofs.Places

/-!
# What tokens and diagnostics look like

Each token of a source is spelled as its kind asks for (`spelled_of_mem_tokens`), and the spelling
says what the literal is. The end of the source is the last token and no other (`ended_tokens`). Each
diagnostic has one of two wordings, which stay on one line (`worded_of_mem_diagnostics`).
-/

set_option autoImplicit false

namespace LoxLexer

/-! ## Definitions -/

/-- **How a token is spelled**: its kind, its lexeme and its literal. -/
inductive Spelled : Kind → String → Literal → Prop where
  | punctuator (p : Punctuator) : Spelled (.punctuator p) (String.ofList p.spelling) .absent
  | string {body : List Char} (closed : '"' ∉ body) :
      Spelled .string (String.ofList ('"' :: body ++ ['"'])) (.string (String.ofList body))
  | number {n : Numeral} (wellFormed : n.WellFormed) :
      Spelled .number (String.ofList n.text) (.number n.value)
  | eof : Spelled .eof "" .absent

/-- The last item of a list, and no other one, has the property. -/
inductive Ended {α : Type} (last : α → Prop) : List α → Prop where
  | stop {a : α} : last a → Ended last [a]
  | more {a : α} {items : List α} : ¬ last a → Ended last items → Ended last (a :: items)

/-- **How a diagnostic is worded**: its code and its message. -/
inductive Worded : UInt32 → String → Prop where
  | unexpected {c : Char} (beginsNothing : Opening.ofChar c = .nothing) :
      Worded 1001 ("Unexpected character: " ++ String.singleton c)
  | unterminated : Worded 1002 "Unterminated string."

/-! ## Tokens -/

variable {l : Located} {rest : List Char}

theorem spelled_of_token? {t : Token} (hfits : l.piece.Fits rest) (h : l.token? = some t) :
    Spelled t.kind t.lexeme t.literal := by
  obtain ⟨piece, start⟩ := l
  cases piece with
  | punctuator p =>
      cases h
      exact .punctuator p
  | string body =>
      cases h
      exact .string hfits
  | numeral n =>
      cases h
      exact .number hfits.wellFormed
  | _ => cases h

/-- **The tokens of a source are spelled as their kinds ask for.** -/
theorem spelled_of_mem_tokens (source : String) :
    ∀ t ∈ (lex source).tokens, Spelled t.kind t.lexeme t.literal := by
  rw [lex_eq]
  refine forall_tokens ?_ .eof
  intro l hl t htoken
  obtain ⟨done, rest, -, hfits, -⟩ := mem_located hl
  exact spelled_of_token? hfits htoken

theorem ended_append_singleton {α : Type} {last : α → Prop} {inner : List α} {a : α}
    (hinner : ∀ b ∈ inner, ¬ last b) (ha : last a) : Ended last (inner ++ [a]) := by
  induction inner with
  | nil => exact .stop ha
  | cons b inner ih =>
      obtain ⟨hb, hinner⟩ := List.forall_mem_cons.mp hinner
      exact .more hb (ih hinner)

/-- **The end of a source** is its last token and no other. -/
theorem ended_tokens (source : String) : Ended (fun t => t.kind = .eof) (lex source).tokens := by
  rw [lex_eq]
  refine ended_append_singleton ?_ rfl
  intro t ht
  obtain ⟨l, -, htoken⟩ := List.mem_filterMap.mp ht
  obtain ⟨kind, literal, hkind, rfl⟩ := Located.of_token?_eq_some htoken
  exact hkind

/-! ## Diagnostics -/

theorem worded_of_diagnostic? {d : Diagnostic} (hfits : l.piece.Fits rest)
    (h : l.diagnostic? = some d) : Worded d.code d.message := by
  obtain ⟨piece, start⟩ := l
  cases piece with
  | stray c =>
      cases h
      show Worded 1001 (Template.unexpectedCharacter.fill [String.singleton c])
      rw [Template.fill_unexpectedCharacter]
      exact .unexpected hfits
  | unclosed body =>
      cases h
      show Worded 1002 (Template.unterminatedString.fill [])
      rw [Template.fill_unterminatedString]
      exact .unterminated
  | _ => cases h

/-- **The diagnostics of a source have one of the two wordings.** -/
theorem worded_of_mem_diagnostics (source : String) :
    ∀ d ∈ (lex source).diagnostics, Worded d.code d.message := by
  rw [lex_eq]
  refine forall_diagnostics ?_
  intro l hl d hfault
  obtain ⟨done, rest, -, hfits, -⟩ := mem_located hl
  exact worded_of_diagnostic? hfits hfault

/-- A message is one line. -/
theorem Worded.lineFeed_not_mem {code : UInt32} {message : String} (h : Worded code message) :
    '\n' ∉ message.toList := by
  cases h with
  | @unexpected c hnothing =>
      have hne : '\n' ≠ c := by
        rintro rfl
        exact absurd hnothing (by decide)
      have hfront : '\n' ∉ "Unexpected character: ".toList := by decide
      rw [String.toList_append, String.toList_singleton, List.mem_append, List.mem_singleton]
      rintro (hmem | hmem)
      · exact hfront hmem
      · exact hne hmem
  | unterminated => decide

/-- The message tells the code. -/
theorem Worded.code_eq {code code' : UInt32} {message : String} (h : Worded code message)
    (h' : Worded code' message) : code = code' := by
  have hne (c : Char) :
      "Unexpected character: " ++ String.singleton c ≠ "Unterminated string." := by
    intro hsame
    -- both begin with `Un`, so it is the third character that tells them apart
    have hthird := congrArg (fun message => message.toList[2]?) hsame
    simp at hthird
  generalize hmessage : message = message' at h'
  cases h with
  | unexpected _ =>
      cases h' with
      | unexpected _ => rfl
      | unterminated => exact absurd hmessage (hne _)
  | unterminated =>
      cases h' with
      | unexpected _ => exact absurd hmessage.symm (hne _)
      | unterminated => rfl

end LoxLexer
