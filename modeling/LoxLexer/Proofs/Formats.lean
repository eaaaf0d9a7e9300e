import Mathlib.Data.List.Forall2
import LoxLexer.Proofs.CommandLine
import LoxLexer.Proofs.JsonLexed
import LoxLexer.Proofs.Sources
import LoxLexer.Proofs.Spelling

/-!
# All formats tell the same

Sources are listed as text or in JSON, and what is wrong with them is told in lines or in reports.
All of that tells the same (`formats_agree`). A JSON listing has one document on each line, and what
is decoded from the documents gives the text listing and the lines about diagnostics, letter by
letter; the reports have these lines as their messages. What the lines look like is said here once
more (`Token.rendered`, `Diagnostic.rendered`), apart from the functions that print them.

A number is not written with the same digits in both formats, but it is decoded from the one
before it is written in the other. Only an infinite number is lost in JSON.
-/

set_option autoImplicit false

namespace LoxLexer

/-! ## Definitions -/

/-- The line of a source in a JSON listing. -/
def SourceFile.document (source : SourceFile) : String := (lex source.text).json.text

/-- **What is decoded from a document**, however it is read. -/
structure Decodes (document : String) (lexed : Lexed) : Prop where
  exists_value : ∃ v, Json.IsDocument document.toList v
  ofValue? : ∀ v, Json.IsDocument document.toList v → Lexed.ofValue? v = some lexed

/-- Whether the literal is an infinite number. -/
def Literal.isInfinite : Literal → Bool
  | number x => x.magnitude == Binary64.infiniteMagnitude
  | absent | string _ => false

/-- Whether no literal is an infinite number. -/
def Lexed.noneInfinite (lexed : Lexed) : Bool := lexed.tokens.all fun t => !t.literal.isInfinite

/-- The line of a token that has been decoded: its kind, its lexeme and its literal. -/
def Token.rendered (t : Token) : String :=
  t.kind.name ++ " " ++ t.lexeme ++ " " ++
    match t.literal with
    | .absent => "null"
    | .number x => x.text
    | .string s => s

/-- The line of a diagnostic that has been decoded: its line and its message. -/
def Diagnostic.rendered (d : Diagnostic) : String :=
  "[line " ++ d.line.toNat.repr ++ "] Error: " ++ d.message

/-- **The outcomes of runs on the same sources tell the same**, whichever format they have and
whether they are pretty. -/
structure FormatsAgree (outcome : Format → Bool → Outcome) (sources : List SourceFile)
    (decoded : List Lexed) : Prop where
  exitCode : ∀ format format' pretty pretty',
    (outcome format pretty).exitCode = (outcome format' pretty').exitCode
  stdout : ∀ format pretty pretty',
    (outcome format pretty).stdout = (outcome format pretty').stdout
  stderr_json : ∀ pretty, (outcome .json pretty).stderr = .plain ""
  stdout_json : ∀ pretty, (outcome .json pretty).stdout =
    String.join (sources.map fun source => source.document ++ "\n")
  lineFeed_not_mem : ∀ source ∈ sources, '\n' ∉ source.document.toList
  decodes : List.Forall₂ (fun source lexed => Decodes source.document lexed) sources decoded
  stdout_text : (∀ source ∈ sources, (lex source.text).noneInfinite = true) → ∀ pretty,
    (outcome .text pretty).stdout =
      String.join (decoded.flatMap fun lexed => lexed.tokens.map fun t => t.rendered ++ "\n")
  stderr_plain : (outcome .text false).stderr =
    .plain (String.join
      (decoded.flatMap fun lexed => lexed.diagnostics.map fun d => d.rendered ++ "\n"))
  stderr_pretty : ∃ reports, (outcome .text true).stderr = .reports reports ∧
    (reports.map fun report => (report.code, report.message)) =
      decoded.flatMap fun lexed =>
        lexed.diagnostics.map fun d => ("lox::E" ++ d.code.toNat.repr, d.rendered)

/-! ## What is decoded -/

theorem Lexed.decodes (lexed : Lexed) : Decodes lexed.json.text lexed.kept :=
  ⟨lexed.keptInJson.document, lexed.keptInJson.read⟩

theorem Lexed.lineFeed_not_mem_json (lexed : Lexed) : '\n' ∉ lexed.json.text.toList := by
  intro hmem
  exact absurd (lexed.keptInJson.plain '\n' hmem) (by decide)

/-- A number of a source is finite or infinite, and nothing else. -/
theorem Spelled.isFinite {kind : Kind} {lexeme : String} {literal : Literal}
    (h : Spelled kind lexeme literal) (hinfinite : literal.isInfinite = false) :
    literal.isFinite = true := by
  cases h with
  | @number n hn =>
      have hle : n.value.magnitude ≤ Binary64.infiniteMagnitude := Binary64.nearestMagnitude_le _ _
      have hne : n.value.magnitude ≠ Binary64.infiniteMagnitude := by
        simpa [Literal.isInfinite] using hinfinite
      exact decide_eq_true (lt_of_le_of_ne hle hne)
  | _ => rfl

theorem allFinite_of_noneInfinite {source : String} (h : (lex source).noneInfinite = true) :
    (lex source).allFinite = true := by
  refine List.all_eq_true.mpr fun t ht => ?_
  have hinfinite := List.all_eq_true.mp h t ht
  exact (spelled_of_mem_tokens source t ht).isFinite (by simpa using hinfinite)

theorem Token.text_eq_rendered (t : Token) : t.text = t.rendered := by
  obtain ⟨kind, lexeme, literal, line, span⟩ := t
  cases literal <;> rfl

theorem Diagnostic.text_eq_rendered (d : Diagnostic) : d.text = d.rendered := rfl

/-- The lines of what is decoded are those of the source. -/
theorem map_text_kept {lexed : Lexed} (h : lexed.allFinite = true) :
    lexed.kept.tokens.map Token.rendered = lexed.tokens.map Token.text := by
  rw [Lexed.kept_of_allFinite h, Lexed.withoutSpans, List.map_map]
  exact List.map_congr_left fun t _ => t.text_eq_rendered.symm

/-- Diagnostics lose nothing but their spans, which are not told in a line. -/
theorem map_rendered_kept (lexed : Lexed) :
    lexed.kept.diagnostics.map Diagnostic.rendered = lexed.diagnostics.map Diagnostic.text := by
  rw [Lexed.kept, List.map_map]
  exact List.map_congr_left fun d _ => d.text_eq_rendered.symm

/-- The code of a report is that of the diagnostic, since all codes have four digits. -/
theorem Worded.diagnosticCode_eq {code : UInt32} {message : String} (h : Worded code message) :
    Report.diagnosticCode code = "lox::E" ++ code.toNat.repr := by
  cases h <;> decide +kernel

/-! ## The outcomes -/

variable (pretty : Bool) (sources : List SourceFile)

theorem stdout_tokenize_json : (tokenize .json pretty sources).stdout =
    String.join (sources.map fun source => source.document ++ "\n") := by
  rw [stdout_tokenize]
  refine congrArg String.join (List.map_congr_left fun source _ => ?_)
  exact unlines_singleton source.document

/-- **What is kept in JSON is what the other outcomes tell.** -/
theorem formatsAgree_tokenize : FormatsAgree (fun format pretty => tokenize format pretty sources)
    sources (sources.map fun source => (lex source.text).kept) := by
  constructor
  case exitCode =>
    intro format format' pretty pretty'
    rw [exitCode_tokenize, exitCode_tokenize]
  case stdout =>
    intro format pretty pretty'
    rw [stdout_tokenize, stdout_tokenize]
  case stderr_json =>
    intro pretty
    rw [stderr_tokenize]
    rfl
  case stdout_json =>
    intro pretty
    exact stdout_tokenize_json pretty sources
  case lineFeed_not_mem => exact fun source _ => (lex source.text).lineFeed_not_mem_json
  case decodes =>
    rw [List.forall₂_map_right_iff, List.forall₂_same]
    exact fun source _ => (lex source.text).decodes
  case stdout_text =>
    -- if all numbers are kept, tokens lose nothing but their spans, which are not listed
    intro hnone pretty
    have hlines : ∀ source ∈ sources, (lex source.text).tokens.map Token.text =
        (lex source.text).kept.tokens.map Token.rendered := fun source hsource =>
      (map_text_kept (allFinite_of_noneInfinite (hnone source hsource))).symm
    rw [stdout_tokenize_text, List.flatMap_map, List.flatMap_congr hlines, unlines_flatMap_map]
  case stderr_plain =>
    have hlines : ∀ source ∈ sources, (lex source.text).diagnostics.map Diagnostic.text =
        (lex source.text).kept.diagnostics.map Diagnostic.rendered := fun source _ =>
      (map_rendered_kept (lex source.text)).symm
    rw [stderr_tokenize_plain, List.flatMap_map, List.flatMap_congr hlines, unlines_flatMap_map]
  case stderr_pretty =>
    refine ⟨_, stderr_tokenize_pretty sources, ?_⟩
    rw [List.map_flatMap, List.flatMap_map]
    refine List.flatMap_congr fun source _ => ?_
    rw [Lexed.kept, List.map_map, List.map_map]
    refine List.map_congr_left fun d hd => ?_
    have hcode := (worded_of_mem_diagnostics source.text d hd).diagnosticCode_eq
    exact Prod.ext hcode d.text_eq_rendered

/-- **All formats tell the same**, for any command lines that ask for the same sources. -/
theorem formats_agree (files : FileSystem) (sources : List SourceFile)
    (arguments : Format → Bool → List String)
    (h : ∀ format pretty, Asks files (arguments format pretty) format pretty sources) :
    ∃ decoded, FormatsAgree (fun format pretty => run files (arguments format pretty)) sources
      decoded := by
  have hrun : (fun format pretty => run files (arguments format pretty)) =
      fun format pretty => tokenize format pretty sources := by
    funext format pretty
    exact (h format pretty).run_eq
  rw [hrun]
  exact ⟨_, formatsAgree_tokenize sources⟩

/-- A string with a line feed, a number with other digits in JSON, a stray character and a string
that is not closed. -/
theorem agree_mixed :
    let sources : List SourceFile :=
      [⟨"a", "\"two\nlines\" 99999999999999999999999 @"⟩, ⟨"b", "\"open"⟩]
    let files := FileSystem.ofList
      (sources.map fun source => (source.name, source.text.toByteArray))
    let arguments (format : Format) (pretty : Bool) := (Job.mk format pretty ["a", "b"]).arguments
    (∀ format pretty, Asks files (arguments format pretty) format pretty sources) ∧
      (∀ source ∈ sources, (lex source.text).noneInfinite = true) ∧
      (∃ decoded, FormatsAgree (fun format pretty => run files (arguments format pretty)) sources
        decoded) ∧
      run files (arguments .text false) =
        ⟨65, "STRING \"two\nlines\" two\nlines\n" ++
            "NUMBER 99999999999999999999999 99999999999999991611392.0\n" ++ "EOF  null\n" ++
            "EOF  null\n",
          .plain ("[line 2] Error: Unexpected character: @\n" ++
            "[line 1] Error: Unterminated string.\n")⟩ ∧
      (run files (arguments .text true)).stderr = .reports
        [⟨"lox::E1001", "[line 2] Error: Unexpected character: @", some ⟨"a", ⟨2, 32⟩⟩⟩,
          ⟨"lox::E1002", "[line 1] Error: Unterminated string.", some ⟨"b", ⟨1, 1⟩⟩⟩] ∧
      (SourceFile.mk "b" "\"open").document =
        "\x7b\"tokens\":[\x7b\"kind\":\"EOF\",\"lexeme\":\"\",\"literal\":null,\"line\":1\x7d]," ++
          "\"diagnostics\":[" ++
            "\x7b\"line\":1,\"code\":1002,\"message\":\"Unterminated string.\"\x7d]\x7d" := by
  intro sources files arguments
  have hasks : ∀ format pretty, Asks files (arguments format pretty) format pretty sources := by
    intro format pretty
    refine ⟨ofArguments?_arguments ⟨List.cons_ne_nil _ _, by simp⟩, ?_⟩
    exact List.forall_mem_cons.mpr ⟨rfl, List.forall_mem_singleton.mpr rfl⟩
  have hfinite : ∀ source ∈ sources, (lex source.text).noneInfinite = true := by decide +kernel
  refine ⟨hasks, hfinite, formats_agree files sources arguments hasks, ?_, ?_, ?_⟩
  · decide +kernel
  · decide +kernel
  · decide +kernel

end LoxLexer
