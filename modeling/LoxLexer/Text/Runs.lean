/-!
# Runs of characters

A text often begins with a run of characters of one kind, which a reader takes off its front
with `takeWhile` and `dropWhile`. If the text is made of such a run and of something that does
not go on with it (`Halts`), these two find exactly the run and exactly the something.
-/

set_option autoImplicit false

namespace LoxLexer

variable {p : Char → Bool} {run rest : List Char}

/-- No character that `p` holds of is next. -/
def Halts (p : Char → Bool) (rest : List Char) : Prop := ∀ c, rest.head? = some c → p c = false

theorem halts_nil : Halts p [] := by
  intro c hc
  cases hc

theorem halts_cons {c : Char} (hc : p c = false) : Halts p (c :: rest) := by
  intro d hd
  cases hd
  exact hc

/-- A run without `a` is one of characters other than `a`. -/
theorem bne_of_not_mem {a : Char} (h : a ∉ run) : ∀ c ∈ run, (c != a) = true := by
  intro c hc
  have hne : c ≠ a := fun heq => h (heq ▸ hc)
  simpa using hne

/-- What is left behind the longest run does not go on with it. -/
theorem halts_dropWhile (p : Char → Bool) (text : List Char) : Halts p (text.dropWhile p) := by
  intro c hc
  have := List.head?_dropWhile_not p text
  rw [hc] at this
  simpa using this

theorem not_mem_takeWhile (a : Char) (text : List Char) : a ∉ text.takeWhile (· != a) := by
  intro hmem
  have hne := List.all_eq_true.mp List.all_takeWhile a hmem
  simp at hne

/-- **A text is cut** into the longest run in front of it and what is left behind the run. -/
theorem exists_run (p : Char → Bool) (text : List Char) :
    ∃ run rest, text = run ++ rest ∧ (∀ c ∈ run, p c) ∧ Halts p rest := by
  refine ⟨text.takeWhile p, text.dropWhile p, ?_, ?_, ?_⟩
  · exact List.takeWhile_append_dropWhile.symm
  · exact List.all_eq_true.mp List.all_takeWhile
  · exact halts_dropWhile p text

theorem takeWhile_append_of_halts (hrun : ∀ c ∈ run, p c) (hrest : Halts p rest) :
    (run ++ rest).takeWhile p = run := by
  rw [List.takeWhile_append_of_pos hrun]
  cases rest with
  | nil => simp
  | cons c rest => simp [hrest c rfl]

theorem dropWhile_append_of_halts (hrun : ∀ c ∈ run, p c) (hrest : Halts p rest) :
    (run ++ rest).dropWhile p = rest := by
  rw [List.dropWhile_append_of_pos hrun]
  cases rest with
  | nil => rfl
  | cons c rest => simp [hrest c rfl]

/-- **A run is told from what is behind it**: texts made of a run and of something that does not go
on with it are the same only if they are made of the same. -/
theorem append_inj_of_halts {run' rest' : List Char} (hrun : ∀ c ∈ run, p c)
    (hrun' : ∀ c ∈ run', p c) (hrest : Halts p rest) (hrest' : Halts p rest')
    (h : run ++ rest = run' ++ rest') : run = run' ∧ rest = rest' := by
  constructor
  · rw [← takeWhile_append_of_halts hrun hrest, h, takeWhile_append_of_halts hrun' hrest']
  · rw [← dropWhile_append_of_halts hrun hrest, h, dropWhile_append_of_halts hrun' hrest']

/-- The same of runs up to a character that is not in them. -/
theorem append_cons_inj_of_not_mem {a : Char} {run' rest' : List Char} (hrun : a ∉ run)
    (hrun' : a ∉ run') (h : run ++ a :: rest = run' ++ a :: rest') :
    run = run' ∧ rest = rest' := by
  have hhalts (rest : List Char) : Halts (· != a) (a :: rest) := halts_cons (by simp)
  obtain ⟨hsame, hbehind⟩ := append_inj_of_halts (bne_of_not_mem hrun) (bne_of_not_mem hrun')
    (hhalts rest) (hhalts rest') h
  exact ⟨hsame, List.tail_eq_of_cons_eq hbehind⟩

/-! ## Numbers in digits -/

theorem isDigit_of_mem_toDigits {n : Nat} {c : Char} (h : c ∈ Nat.toDigits 10 n) : c.isDigit :=
  Nat.isDigit_of_mem_toDigits (by decide) (by decide) h

/-- **A number is told from what is behind it**, if no digit follows. -/
theorem toDigits_append_cons_inj {m n : Nat} {a : Char} {rest' : List Char}
    (ha : a.isDigit = false) (h : Nat.toDigits 10 m ++ a :: rest = Nat.toDigits 10 n ++ a :: rest') :
    m = n ∧ rest = rest' := by
  have hnot (n : Nat) : a ∉ Nat.toDigits 10 n := by
    intro hmem
    rw [isDigit_of_mem_toDigits hmem] at ha
    cases ha
  obtain ⟨hdigits, hrest⟩ := append_cons_inj_of_not_mem (hnot m) (hnot n) h
  have hread := congrArg (fun digits => Nat.ofDigitChars 10 digits 0) hdigits
  simp only [Nat.ofDigitChars_ten_toDigits] at hread
  exact ⟨hread, hrest⟩

end LoxLexer
