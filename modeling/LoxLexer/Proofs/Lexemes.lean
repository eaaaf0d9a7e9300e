import LoxLexer.Proofs.Lines
import LoxLexer.Proofs.Spelling

/-!
# The lexeme of a token

The lexeme of a token is what its kind asks for, and the literal is what the lexeme says
(`lex_wellFormed`). All that a listing shows of a token is known from its lexeme alone, since the
first character tells a string, a number and a punctuator from each other (`ofLexeme_of_spelled`).

A lexeme is also as long as it can be: what follows in the source would not have made a longer token
of that kind (`lex_maximal`). That a piece fits in front of what follows it says so already.
-/

set_option autoImplicit false

namespace LoxLexer

/-! ## Definitions -/

/-- **A token is well formed**: its lexeme is of the form that its kind asks for, and its literal is
the value that the lexeme is read as. -/
def Token.WellFormed (t : Token) : Prop :=
  match t.kind with
  | .string => ∃ body : String, '"' ∉ body.toList ∧ t.lexeme = "\"" ++ body ++ "\"" ∧
      t.literal = .string body
  | .number => ∃ n : Numeral, n.WellFormed ∧ t.lexeme = String.ofList n.text ∧
      Numeral.ofText? t.lexeme.toList = some n ∧ t.literal = .number n.value
  | .punctuator p => t.lexeme = String.ofList p.spelling ∧ t.literal = .absent
  | .eof => t.lexeme = "" ∧ t.literal = .absent

/-- The kind of the token with a given lexeme. -/
def Kind.ofLexeme : List Char → Kind
  | [] => .eof
  | c :: rest =>
      if c = '"' then .string
      else if c.isDigit then .number
      else
        match Punctuator.all.find? fun p => p.spelling == c :: rest with
        | some p => .punctuator p
        | none => .eof

/-- **Nothing of `rest` belongs to the token** in front of it. -/
structure Token.Maximal (t : Token) (rest : List Char) : Prop where
  not_equal : t.kind ∈ [.punctuator .bang, .punctuator .equal, .punctuator .less,
    .punctuator .greater] → rest.head? ≠ some '='
  not_slash : t.kind = .punctuator .slash → rest.head? ≠ some '/'
  not_digit : t.kind = .number → ∀ c, rest.head? = some c → c.isDigit = false
  not_fraction : t.kind = .number → '.' ∉ t.lexeme.toList →
    ∀ c more, rest = '.' :: c :: more → c.isDigit = false

/-! ## What the lexeme tells -/

variable {kind kind' : Kind} {lexeme : String} {literal literal' : Literal}

theorem ofLexeme_spelling (p : Punctuator) : Kind.ofLexeme p.spelling = .punctuator p := by
  cases p <;> rfl

/-- A text that begins with a digit is that of a number. -/
theorem ofLexeme_of_digit {c : Char} (hc : c.isDigit) (rest : List Char) :
    Kind.ofLexeme (c :: rest) = .number := by
  have hquote : c ≠ '"' := by
    rintro rfl
    exact absurd hc (by decide)
  rw [Kind.ofLexeme, if_neg hquote, if_pos hc]

theorem exists_text_of_wellFormed {n : Numeral} (h : n.WellFormed) :
    ∃ c rest, n.text = c :: rest ∧ c.isDigit := by
  obtain ⟨c, digits, hwhole⟩ := List.exists_cons_of_ne_nil h.whole_ne_nil
  have hdigit : c.isDigit := by
    apply h.isDigit_whole
    rw [hwhole]
    exact List.mem_cons_self ..
  unfold Numeral.text
  rw [hwhole]
  cases n.fraction with
  | none => exact ⟨c, digits, rfl, hdigit⟩
  | some decimals => exact ⟨c, digits ++ '.' :: decimals, rfl, hdigit⟩

/-- **The kind is known from the lexeme.** -/
theorem ofLexeme_of_spelled (h : Spelled kind lexeme literal) :
    Kind.ofLexeme lexeme.toList = kind := by
  cases h with
  | punctuator p =>
      rw [String.toList_ofList]
      exact ofLexeme_spelling p
  | string hclosed =>
      rw [String.toList_ofList]
      rfl
  | number hn =>
      obtain ⟨c, rest, htext, hdigit⟩ := exists_text_of_wellFormed hn
      rw [String.toList_ofList, htext]
      exact ofLexeme_of_digit hdigit rest
  | eof => rfl

/-- **So is the literal.** -/
theorem Spelled.literal_eq (h : Spelled kind lexeme literal) (h' : Spelled kind lexeme literal') :
    literal = literal' := by
  generalize hlexeme : lexeme = lexeme' at h'
  cases h with
  | punctuator p =>
      cases h'
      rfl
  | @string body hclosed =>
      cases h' with
      | @string body' hclosed' =>
          have htext := congrArg String.toList hlexeme
          simp only [String.toList_ofList, List.cons_append, List.cons.injEq, true_and,
            List.append_cancel_right_eq] at htext
          rw [htext]
  | @number n hn =>
      cases h' with
      | @number n' hn' =>
          have htext := congrArg String.toList hlexeme
          rw [String.toList_ofList, String.toList_ofList] at htext
          have hread := Numeral.ofText?_text hn
          rw [htext, Numeral.ofText?_text hn'] at hread
          rw [Option.some.inj hread]
  | eof =>
      cases h'
      rfl

/-- Kinds other than those of strings and numbers have one lexeme each. -/
theorem Spelled.lexeme_eq {lexeme' : String} (h : Spelled kind lexeme literal)
    (h' : Spelled kind lexeme' literal') (hstring : kind ≠ .string) (hnumber : kind ≠ .number) :
    lexeme = lexeme' := by
  cases h with
  | punctuator p =>
      cases h'
      rfl
  | string hclosed => exact absurd rfl hstring
  | number hn => exact absurd rfl hnumber
  | eof =>
      cases h'
      rfl

theorem wellFormed_of_spelled {t : Token} (h : Spelled t.kind t.lexeme t.literal) :
    t.WellFormed := by
  obtain ⟨kind, lexeme, literal, line, span⟩ := t
  dsimp only at h
  cases h with
  | punctuator p => exact ⟨rfl, rfl⟩
  | @string body hclosed =>
      refine ⟨String.ofList body, ?_, ?_, rfl⟩
      · rwa [String.toList_ofList]
      · apply String.toList_inj.mp
        simp
  | @number n hn =>
      refine ⟨n, hn, rfl, ?_, rfl⟩
      rw [String.toList_ofList]
      exact Numeral.ofText?_text hn
  | eof => exact ⟨rfl, rfl⟩

/-- **Every token is well formed**, and its lexeme tells all about it that a listing shows: tokens
of one lexeme, whatever the sources are that they come from, are of one kind and have one literal.
Except for strings and numbers the kind tells the lexeme as well. -/
theorem lex_wellFormed (source : String) :
    ∀ t ∈ (lex source).tokens, t.WellFormed ∧
      ∀ other, ∀ t' ∈ (lex other).tokens,
        (t.lexeme = t'.lexeme → t.kind = t'.kind ∧ t.literal = t'.literal) ∧
        (t.kind = t'.kind → t.kind ≠ .string → t.kind ≠ .number → t.lexeme = t'.lexeme) := by
  intro t ht
  have hspelled := spelled_of_mem_tokens source t ht
  refine ⟨wellFormed_of_spelled hspelled, ?_⟩
  intro other t' ht'
  have hspelled' := spelled_of_mem_tokens other t' ht'
  constructor
  · intro hlexeme
    have hkind : t.kind = t'.kind := by
      rw [← ofLexeme_of_spelled hspelled, ← ofLexeme_of_spelled hspelled', hlexeme]
    rw [← hkind, ← hlexeme] at hspelled'
    exact ⟨hkind, hspelled.literal_eq hspelled'⟩
  · intro hkind hstring hnumber
    rw [← hkind] at hspelled'
    exact hspelled.lexeme_eq hspelled' hstring hnumber

/-- A string that holds what looks like a comment, in front of a number. -/
theorem wellFormed_string :
    (∃ t ∈ (lex "\"//\"1.5").tokens, t.kind = .string ∧ t.lexeme = "\"//\"" ∧
      t.literal = .string "//" ∧ t.WellFormed) ∧
    ∃ t ∈ (lex "\"//\"1.5").tokens, t.kind = .number ∧ t.lexeme = "1.5" ∧
      t.literal = .number (Binary64.ofBits 0x3FF8000000000000) ∧ t.WellFormed := by
  have hstring : ⟨.string, "\"//\"", .string "//", 1, ⟨0, 4⟩⟩ ∈ (lex "\"//\"1.5").tokens := by
    decide +kernel
  have hnumber : ⟨.number, "1.5", .number (Binary64.ofBits 0x3FF8000000000000), 1, ⟨4, 3⟩⟩ ∈
      (lex "\"//\"1.5").tokens := by
    decide +kernel
  exact ⟨⟨_, hstring, rfl, rfl, rfl, (lex_wellFormed _ _ hstring).1⟩,
    ⟨_, hnumber, rfl, rfl, rfl, (lex_wellFormed _ _ hnumber).1⟩⟩

/-! ## What is behind a token -/

/-- Only punctuators and numbers can go on. -/
theorem maximal_of_ne {t : Token} {rest : List Char} (hpunctuator : ∀ p, t.kind ≠ .punctuator p)
    (hnumber : t.kind ≠ .number) : t.Maximal rest := by
  constructor
  case not_equal =>
    intro hkind
    simp only [List.mem_cons, List.not_mem_nil, or_false] at hkind
    rcases hkind with hbang | hequal | hless | hgreater
    · exact absurd hbang (hpunctuator _)
    · exact absurd hequal (hpunctuator _)
    · exact absurd hless (hpunctuator _)
    · exact absurd hgreater (hpunctuator _)
  case not_slash => exact fun hkind => absurd hkind (hpunctuator _)
  case not_digit => exact fun hkind => absurd hkind hnumber
  case not_fraction => exact fun hkind => absurd hkind hnumber

/-- A punctuator goes on with an equals sign or a slash. -/
theorem maximal_of_punctuator {t : Token} {p : Punctuator} {rest : List Char}
    (hkind : t.kind = .punctuator p) (hfits : (Piece.punctuator p).Fits rest) :
    t.Maximal rest := by
  obtain ⟨hequal, hslash⟩ := hfits
  have hnumber : t.kind ≠ .number := by
    rw [hkind]
    intro h
    cases h
  constructor
  case not_equal =>
    intro hmem
    apply hequal
    simp only [hkind, List.mem_cons, List.not_mem_nil, or_false, Kind.punctuator.injEq] at hmem
    rcases hmem with rfl | rfl | rfl | rfl <;> decide
  case not_slash =>
    intro hsame
    rw [hkind] at hsame
    exact hslash (Kind.punctuator.inj hsame)
  case not_digit => exact fun h => absurd h hnumber
  case not_fraction => exact fun h => absurd h hnumber

/-- A number goes on with a digit, or with a fraction if it has none. -/
theorem maximal_of_numeral {t : Token} {n : Numeral} {rest : List Char} (hkind : t.kind = .number)
    (hlexeme : t.lexeme = String.ofList n.text) (hfits : (Piece.numeral n).Fits rest) :
    t.Maximal rest := by
  have hpunctuator (p : Punctuator) : t.kind ≠ .punctuator p := by
    rw [hkind]
    intro h
    cases h
  constructor
  case not_equal =>
    intro hmem
    simp [hkind] at hmem
  case not_slash => exact fun h => absurd h (hpunctuator _)
  case not_digit => exact fun _ => hfits.halts
  case not_fraction =>
    intro _ hpoint
    -- a lexeme without a point is that of a numeral without a fraction
    apply hfits.no_point
    cases hfraction : n.fraction with
    | none => rfl
    | some digits =>
        refine absurd ?_ hpoint
        rw [hlexeme, String.toList_ofList, Numeral.text, hfraction]
        simp

/-- **A piece that fits is not made longer** by what is behind it. -/
theorem maximal_of_fits {l : Located} {t : Token} {rest : List Char} (hfits : l.piece.Fits rest)
    (h : l.token? = some t) : t.Maximal rest := by
  obtain ⟨piece, start⟩ := l
  cases piece with
  | punctuator p =>
      cases h
      exact maximal_of_punctuator rfl hfits
  | string body =>
      cases h
      apply maximal_of_ne
      · intro p hkind
        cases hkind
      · intro hkind
        cases hkind
  | numeral n =>
      cases h
      exact maximal_of_numeral rfl rfl hfits
  | _ => cases h

/-- **No token could be longer**: what stands in the source from the end of a token on does not go
on with it. -/
theorem lex_maximal (source : String) (hsize : source.utf8ByteSize ≤ 2 ^ 32 - 1) :
    ∀ t ∈ (lex source).tokens, ∃ stop rest, t.span.stop = .ok stop ∧
      slice source stop.toNat source.utf8ByteSize = .ok (String.ofList rest) ∧
      t.Maximal rest := by
  rw [lex_eq]
  have hbehind (done rest : List Char) (hs : source = String.ofList (done ++ rest)) :
      slice source (clip (byteSize done)).toNat source.utf8ByteSize = .ok (String.ofList rest) := by
    have hwhole : source = String.ofList (done ++ rest ++ []) := by rwa [List.append_nil]
    have htext := slice_eq hwhole
    have hbytes : source.utf8ByteSize = byteSize (done ++ rest) := by rw [hs, utf8ByteSize_ofList]
    rw [hbytes, byteSize_append] at hsize
    rw [toNat_clip, Nat.min_eq_left (by omega), hbytes]
    exact htext
  refine forall_tokens ?_ ?_
  · intro l hl t htoken
    obtain ⟨done, rest, hs, hfits, hstart⟩ := exists_cut hl
    have hmaximal := maximal_of_fits hfits htoken
    obtain ⟨kind, literal, -, rfl⟩ := Located.of_token?_eq_some htoken
    rw [← List.append_assoc] at hs
    exact ⟨_, rest, stop_span hstart, hbehind _ rest hs, hmaximal⟩
  · have hs : source = String.ofList (source.toList ++ []) := by
      rw [List.append_nil, String.ofList_toList]
    have hstop : (eofToken (Place.origin.after source.toList)).span.stop =
        .ok (clip (byteSize source.toList)) := by
      have hoffset : (Place.origin.after source.toList).offset = byteSize source.toList :=
        Nat.zero_add _
      rw [← hoffset]
      exact Span.stop_empty _
    refine ⟨_, [], hstop, hbehind _ [] hs, ?_⟩
    apply maximal_of_ne
    · intro p hkind
      cases hkind
    · intro hkind
      cases hkind

/-- A number in front of a point that no digit follows. -/
theorem maximal_point :
    "1.5.2./=".utf8ByteSize ≤ 2 ^ 32 - 1 ∧
      ∃ t ∈ (lex "1.5.2./=").tokens, t.kind = .number ∧ t.lexeme = "2" ∧
        t.Maximal ['.', '/', '='] := by
  have hsize : "1.5.2./=".utf8ByteSize ≤ 2 ^ 32 - 1 := by decide
  have hmem : ⟨.number, "2", .number (.ofBits 0x4000000000000000), 1, ⟨4, 1⟩⟩ ∈
      (lex "1.5.2./=").tokens := by decide +kernel
  obtain ⟨stop, rest, hstop, hbehind, hmaximal⟩ := lex_maximal _ hsize _ hmem
  refine ⟨hsize, _, hmem, rfl, rfl, ?_⟩
  have hfive : (5 : UInt32) = stop := Except.ok.inj hstop
  subst hfive
  have hrest : slice "1.5.2./=" 5 8 = .ok "./=" := by decide +kernel
  have hsame : String.ofList rest = "./=" := Except.ok.inj (hbehind.symm.trans hrest)
  have htext := congrArg String.toList hsame
  rw [String.toList_ofList] at htext
  rw [htext] at hmaximal
  exact hmaximal

end LoxLexer
