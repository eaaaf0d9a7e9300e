import LoxLexer.Piece.Basic
import LoxLexer.Piece.Class
import LoxLexer.Text.Runs

/-!
# Reading pieces

`nextPiece` reads one piece off the front of a text and `pieces` reads a text to its end. A
piece is as long as it can be: an operator takes the equals sign behind it, two slashes begin
a comment, and a numeral takes all its digits, and a point if a digit follows the point.

No character is lost or read twice. The pieces of a text, written one after the other, are
the text (`flatMap_text_pieces`), and each holds at least one character, which is why reading
ends.
-/

set_option autoImplicit false

namespace LoxLexer

/-! ## One piece -/

/-- Reads on behind an opening quote: up to the next quote, if there is one. -/
def stringPiece (rest : List Char) : Piece × List Char :=
  match rest.dropWhile (· != '"') with
  | [] => (.unclosed rest, [])
  | _ :: after => (.string (rest.takeWhile (· != '"')), after)

/-- Reads on behind two slashes: up to the end of the line. -/
def commentPiece (rest : List Char) : Piece × List Char :=
  (.comment (rest.takeWhile (· != '\n')), rest.dropWhile (· != '\n'))

/-- Reads the fraction of a numeral whose digits before the point are `whole`: a point is
part of the numeral only if a digit follows it. -/
def fractionPiece (whole : List Char) : List Char → Piece × List Char
  | '.' :: d :: rest =>
      if d.isDigit then
        (.numeral ⟨whole, some (d :: rest.takeWhile Char.isDigit)⟩, rest.dropWhile Char.isDigit)
      else (.numeral ⟨whole, none⟩, '.' :: d :: rest)
  | rest => (.numeral ⟨whole, none⟩, rest)

/-- Reads on behind a digit. -/
def numeralPiece (digit : Char) (rest : List Char) : Piece × List Char :=
  fractionPiece (digit :: rest.takeWhile Char.isDigit) (rest.dropWhile Char.isDigit)

/-- Reads on behind a punctuator: two slashes begin a comment, and an equals sign is taken by
the punctuators that can be lengthened. -/
def punctuatorPiece (p : Punctuator) : List Char → Piece × List Char
  | [] => (.punctuator p, [])
  | c :: rest =>
      if p = .slash ∧ c = '/' then commentPiece rest
      else
        match p.withEqual? with
        | some q => if c = '=' then (.punctuator q, rest) else (.punctuator p, c :: rest)
        | none => (.punctuator p, c :: rest)

/-- The first piece of the text `c :: rest`, and the text behind it. -/
def nextPiece (c : Char) (rest : List Char) : Piece × List Char :=
  match Opening.ofChar c with
  | .blank => (.blank c, rest)
  | .quote => stringPiece rest
  | .digit => numeralPiece c rest
  | .punctuator p => punctuatorPiece p rest
  | .nothing => (.stray c, rest)

/-! ## What is read

Each of these lemmas gives the piece that a reader takes off a text, for one shape of the text. -/

theorem stringPiece_of_closed {body after : List Char} (h : '"' ∉ body) :
    stringPiece (body ++ '"' :: after) = (.string body, after) := by
  have hbody := bne_of_not_mem h
  have hquote : Halts (· != '"') ('"' :: after) := halts_cons (by decide)
  rw [stringPiece, dropWhile_append_of_halts hbody hquote, takeWhile_append_of_halts hbody hquote]

theorem stringPiece_of_unclosed {rest : List Char} (h : '"' ∉ rest) :
    stringPiece rest = (.unclosed rest, []) := by
  have hdrop := dropWhile_append_of_halts (bne_of_not_mem h) halts_nil
  rw [List.append_nil] at hdrop
  rw [stringPiece, hdrop]

/-- A comment ends where a line feed or nothing follows. -/
theorem commentPiece_append {body rest : List Char} (hbody : '\n' ∉ body)
    (hrest : Halts (· != '\n') rest) : commentPiece (body ++ rest) = (.comment body, rest) := by
  have hrun := bne_of_not_mem hbody
  rw [commentPiece, takeWhile_append_of_halts hrun hrest, dropWhile_append_of_halts hrun hrest]

theorem fractionPiece_of_point {whole digits rest : List Char} (hne : digits ≠ [])
    (hdigits : ∀ c ∈ digits, c.isDigit) (hrest : Halts Char.isDigit rest) :
    fractionPiece whole ('.' :: digits ++ rest) = (.numeral ⟨whole, some digits⟩, rest) := by
  cases digits with
  | nil => exact absurd rfl hne
  | cons d digits =>
      have hmore : ∀ c ∈ digits, c.isDigit := fun c hc => hdigits c (List.mem_cons_of_mem d hc)
      show fractionPiece whole ('.' :: d :: (digits ++ rest)) = _
      rw [fractionPiece, if_pos (hdigits d (List.mem_cons_self ..)),
        takeWhile_append_of_halts hmore hrest, dropWhile_append_of_halts hmore hrest]

/-- Without a point and a digit behind it there is no fraction. -/
theorem fractionPiece_of_no_point {whole rest : List Char}
    (h : ∀ d more, rest = '.' :: d :: more → d.isDigit = false) :
    fractionPiece whole rest = (.numeral ⟨whole, none⟩, rest) := by
  unfold fractionPiece
  split
  · rename_i d more
    rw [if_neg (by simp [h d more rfl])]
  · rfl

/-- What is behind the digits before a point either is a fraction or begins none. -/
theorem fraction_or_not (rest : List Char) :
    (∃ digits after, rest = '.' :: digits ++ after ∧ digits ≠ [] ∧ (∀ c ∈ digits, c.isDigit) ∧
      Halts Char.isDigit after) ∨
    ∀ d more, rest = '.' :: d :: more → d.isDigit = false := by
  by_cases h : ∃ d more, rest = '.' :: d :: more ∧ d.isDigit
  · obtain ⟨d, more, hrest, hd⟩ := h
    obtain ⟨digits, after, rfl, hdigits, hafter⟩ := exists_run Char.isDigit more
    refine Or.inl ⟨d :: digits, after, hrest, ?_, ?_, hafter⟩
    · exact List.cons_ne_nil d digits
    · exact List.forall_mem_cons.mpr ⟨hd, hdigits⟩
  · refine Or.inr fun d more hrest => ?_
    by_cases hd : d.isDigit
    · exact absurd ⟨d, more, hrest, hd⟩ h
    · simpa using hd

theorem numeralPiece_append {digit : Char} {digits rest : List Char}
    (hdigits : ∀ c ∈ digits, c.isDigit) (hrest : Halts Char.isDigit rest) :
    numeralPiece digit (digits ++ rest) = fractionPiece (digit :: digits) rest := by
  rw [numeralPiece, takeWhile_append_of_halts hdigits hrest,
    dropWhile_append_of_halts hdigits hrest]

/-- Two slashes begin a comment. -/
theorem punctuatorPiece_slash_slash (rest : List Char) :
    punctuatorPiece .slash ('/' :: rest) = commentPiece rest := by
  rw [punctuatorPiece, if_pos ⟨rfl, rfl⟩]

theorem punctuatorPiece_of_equal {p q : Punctuator} (h : p.withEqual? = some q)
    (rest : List Char) : punctuatorPiece p ('=' :: rest) = (.punctuator q, rest) := by
  rw [punctuatorPiece, if_neg (by simp), h]
  simp

/-- A punctuator stands alone if what follows neither makes it longer nor makes a comment. -/
theorem punctuatorPiece_of_alone {p : Punctuator} {rest : List Char}
    (hequal : p.withEqual? ≠ none → rest.head? ≠ some '=')
    (hslash : p = .slash → rest.head? ≠ some '/') :
    punctuatorPiece p rest = (.punctuator p, rest) := by
  cases rest with
  | nil => rfl
  | cons c rest =>
      have hno : ¬ (p = .slash ∧ c = '/') := fun h => hslash h.1 (h.2 ▸ rfl)
      rw [punctuatorPiece, if_neg hno]
      cases hlonger : p.withEqual? with
      | none => rfl
      | some q =>
          have hc : c ≠ '=' := fun h => hequal (by simp [hlonger]) (h ▸ rfl)
          simp only [if_neg hc]

/-! ## Nothing is lost -/

theorem text_stringPiece (rest : List Char) :
    (stringPiece rest).1.text ++ (stringPiece rest).2 = '"' :: rest := by
  have hsplit := List.takeWhile_append_dropWhile (p := (· != '"')) (l := rest)
  unfold stringPiece
  cases hfound : rest.dropWhile (· != '"') with
  | nil => simp [Piece.text]
  | cons q after =>
      have hquote : q = '"' := by
        have := List.head?_dropWhile_not (· != '"') rest
        simpa [hfound] using this
      subst hquote
      rw [hfound] at hsplit
      simpa [Piece.text] using hsplit

theorem text_commentPiece (rest : List Char) :
    (commentPiece rest).1.text ++ (commentPiece rest).2 = '/' :: '/' :: rest := by
  simp [commentPiece, Piece.text]

theorem text_fractionPiece (whole rest : List Char) :
    (fractionPiece whole rest).1.text ++ (fractionPiece whole rest).2 = whole ++ rest := by
  unfold fractionPiece
  split
  · split <;> simp [Piece.text, Numeral.text]
  · simp [Piece.text, Numeral.text]

theorem text_numeralPiece (digit : Char) (rest : List Char) :
    (numeralPiece digit rest).1.text ++ (numeralPiece digit rest).2 = digit :: rest := by
  simp [numeralPiece, text_fractionPiece]

theorem text_punctuatorPiece (p : Punctuator) (rest : List Char) :
    (punctuatorPiece p rest).1.text ++ (punctuatorPiece p rest).2 = p.spelling ++ rest := by
  cases rest with
  | nil => simp [punctuatorPiece, Piece.text]
  | cons c rest =>
      simp only [punctuatorPiece]
      split
      · rename_i hslashes
        simp [hslashes.1, hslashes.2, text_commentPiece, Punctuator.spelling]
      · split
        · rename_i q hlonger
          split
          · rename_i hequal
            simp [Piece.text, Punctuator.spelling_withEqual hlonger, hequal]
          · simp [Piece.text]
        · simp [Piece.text]

/-- A piece and the text behind it are the text it was read from. -/
theorem text_nextPiece (c : Char) (rest : List Char) :
    (nextPiece c rest).1.text ++ (nextPiece c rest).2 = c :: rest := by
  unfold nextPiece
  split
  · simp [Piece.text]
  · rename_i hopens
    rw [text_stringPiece, Opening.eq_quote hopens]
  · exact text_numeralPiece c rest
  · rename_i p hopens
    have hfound := Opening.ofChar?_of_punctuator hopens
    rw [text_punctuatorPiece, Punctuator.spelling_ofChar hfound, List.singleton_append]
  · simp [Piece.text]

/-! ## Reading ends -/

theorem length_stringPiece (rest : List Char) : (stringPiece rest).2.length ≤ rest.length := by
  have hshorter := (List.dropWhile_suffix (l := rest) (· != '"')).length_le
  unfold stringPiece
  split
  · simp
  · rename_i hfound
    simp only [hfound, List.length_cons] at hshorter
    simp only
    omega

theorem length_commentPiece (rest : List Char) : (commentPiece rest).2.length ≤ rest.length :=
  (List.dropWhile_suffix _).length_le

theorem length_fractionPiece (whole rest : List Char) :
    (fractionPiece whole rest).2.length ≤ rest.length := by
  unfold fractionPiece
  split
  · rename_i rest
    have hshorter := (List.dropWhile_suffix (l := rest) Char.isDigit).length_le
    split <;> simp only [List.length_cons] <;> omega
  · exact Nat.le_refl _

theorem length_numeralPiece (digit : Char) (rest : List Char) :
    (numeralPiece digit rest).2.length ≤ rest.length :=
  Nat.le_trans (length_fractionPiece _ _) (List.dropWhile_suffix _).length_le

theorem length_punctuatorPiece (p : Punctuator) (rest : List Char) :
    (punctuatorPiece p rest).2.length ≤ rest.length := by
  cases rest with
  | nil => exact Nat.le_refl _
  | cons c rest =>
      have hshorter := length_commentPiece rest
      simp only [punctuatorPiece, List.length_cons]
      split
      · omega
      · split
        · split <;> simp
        · simp

/-- Each piece takes a character at least. -/
theorem length_nextPiece (c : Char) (rest : List Char) :
    (nextPiece c rest).2.length ≤ rest.length := by
  unfold nextPiece
  split
  · exact Nat.le_refl _
  · exact length_stringPiece rest
  · exact length_numeralPiece c rest
  · exact length_punctuatorPiece _ rest
  · exact Nat.le_refl _

/-! ## All pieces -/

/-- Reads a text to its end, adding its pieces to `found`. -/
def collectPieces (found : Array Piece) : List Char → Array Piece
  | [] => found
  | c :: rest =>
      let step := nextPiece c rest
      collectPieces (found.push step.1) step.2
termination_by text => text.length
decreasing_by exact Nat.lt_succ_of_le (length_nextPiece c rest)

/-- **The pieces of a text**, in order. -/
def pieces (text : List Char) : List Piece := (collectPieces #[] text).toList

theorem collectPieces_eq (found : Array Piece) (text : List Char) :
    (collectPieces found text).toList = found.toList ++ pieces text := by
  match text with
  | [] => simp [pieces, collectPieces]
  | c :: rest =>
      have hshorter := length_nextPiece c rest
      have hstep := fun found => collectPieces_eq found (nextPiece c rest).2
      rw [pieces, collectPieces, collectPieces, hstep, hstep]
      simp
termination_by text.length

@[simp] theorem pieces_nil : pieces [] = [] := by
  simp [pieces, collectPieces]

/-- The pieces of a text are its first piece and the pieces of what follows. -/
theorem pieces_cons (c : Char) (rest : List Char) :
    pieces (c :: rest) = (nextPiece c rest).1 :: pieces (nextPiece c rest).2 := by
  rw [pieces, collectPieces, collectPieces_eq]
  simp

/-- **The pieces of a text make up the text.** -/
theorem flatMap_text_pieces (text : List Char) : (pieces text).flatMap Piece.text = text := by
  match text with
  | [] => simp
  | c :: rest =>
      have hshorter := length_nextPiece c rest
      rw [pieces_cons, List.flatMap_cons, flatMap_text_pieces (nextPiece c rest).2,
        text_nextPiece]
termination_by text.length

end LoxLexer
