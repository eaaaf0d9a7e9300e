import LoxLexer.Cursor.Searching

/-!
# Lexing

`lex` takes a source text apart into tokens and diagnostics. It runs the scan that searches for
the ends of comments and strings, and since that never fails, every source has a result.

What the scan finds are the pieces of the text (`lex_eq`), and that is how to reason about it.
-/

set_option autoImplicit false

namespace LoxLexer

/-- A scan of a text comes to its end. -/
theorem scan_searching_ne_error (source : String) (fault : Fault) :
    Cursor.scan .searching source ≠ .error fault := by
  rw [scan_eq Skipping.exact_searching]
  exact nofun

/-- **Lexes a source.** -/
def lex (source : String) : Lexed :=
  match found : Cursor.scan .searching source with
  | .ok lexed => lexed
  | .error fault => absurd found (scan_searching_ne_error source fault)

/-- Lexes several sources, each by itself. -/
def lexAll (sources : List String) : List Lexed := sources.map lex

/-- Lexing is the scan. -/
theorem scan_searching (source : String) : Cursor.scan .searching source = .ok (lex source) := by
  unfold lex
  split
  · assumption
  · rename_i fault hfault
    exact absurd hfault (scan_searching_ne_error source fault)

/-- **Lexing reads the pieces of the text.** -/
theorem lex_eq (source : String) : lex source = Lexed.ofText source.toList := by
  have h := scan_searching source
  rw [scan_eq Skipping.exact_searching] at h
  exact (Except.ok.inj h).symm

end LoxLexer
