import LoxLexer.Proofs.CommandLine
import LoxLexer.Proofs.Sources

/-!
# Several files at once

A run on several files either fails as a whole or comes to what the runs on the single files come
to, one after the other (`run_batch`). It fails with a single report and prints nothing. The report
is about the first file that cannot be read, wherever it stands, and about the first that is not
text only if all can be read.
-/

set_option autoImplicit false

namespace LoxLexer

/-! ## Definitions -/

/-- A notice is what several notices of one kind come to, one after the other. -/
inductive Notice.Joins : List Notice → Notice → Prop where
  | plain (texts : List String) : Joins (texts.map .plain) (.plain (String.join texts))
  | reports (entries : List (List Report)) : Joins (entries.map .reports) (.reports entries.flatten)

/-- **A run comes to what several runs come to**, one after the other. -/
structure Outcome.Joins (parts : List Outcome) (whole : Outcome) : Prop where
  exitCode : whole.exitCode = if parts.any fun part => part.exitCode = 65 then 65 else 0
  stdout : whole.stdout = String.join (parts.map Outcome.stdout)
  stderr : Notice.Joins (parts.map Outcome.stderr) whole.stderr

/-- The same job on one file only. -/
def Job.alone (job : Job) (name : String) : Job := { job with files := [name] }

/-- **A run on several files is the sum of its single runs, or nothing.** -/
structure Batch (files : FileSystem) (job : Job) (outcome : Outcome) : Prop where
  unreadable : (∃ name ∈ job.files, files.Unreadable name) →
    ∃ name, IsFirst files.Unreadable job.files name ∧
      outcome = ⟨1, "", .reports [⟨"lox::io", "failed to read '" ++ name ++ "'", none⟩]⟩
  notText : (∀ name ∈ job.files, ¬ files.Unreadable name) →
    (∃ name ∈ job.files, ¬ files.HoldsText name) →
    ∃ name, IsFirst (¬ files.HoldsText ·) job.files name ∧
      outcome = ⟨1, "", .reports [⟨"lox::encoding", "'" ++ name ++ "' is not valid UTF-8", none⟩]⟩
  texts : (∀ name ∈ job.files, files.HoldsText name) →
    Outcome.Joins (job.files.map fun name => run files (job.alone name).arguments) outcome

/-! ## Sums of runs -/

/-- What is said about several sources is what is said about each of them. -/
theorem joins_noticeOf (format : Format) (pretty : Bool) (sources : List (SourceFile × Lexed)) :
    Notice.Joins (sources.map fun source => noticeOf format pretty [source])
      (noticeOf format pretty sources) := by
  match format, pretty with
  | .json, _ =>
      have hnothing : String.join (sources.map fun _ => "") = "" := by
        induction sources with
        | nil => rfl
        | cons source sources ih => rw [List.map_cons, String.join_cons, ih]; rfl
      have hjoins := Notice.Joins.plain (sources.map fun _ => "")
      rw [hnothing, List.map_map] at hjoins
      exact hjoins
  | .text, false =>
      have hjoins := Notice.Joins.plain
        (sources.map fun source => unlines (source.2.diagnostics.map Diagnostic.text))
      rw [← unlines_flatMap, List.map_map] at hjoins
      simpa [Function.comp_def, noticeOf] using hjoins
  | .text, true =>
      have hjoins := Notice.Joins.reports (sources.map fun source =>
        source.2.diagnostics.map (Report.ofDiagnostic source.1.name source.1.text))
      rw [List.map_map] at hjoins
      simpa [Function.comp_def, noticeOf, List.flatMap_def] using hjoins

/-- **Tokenizing several sources comes to tokenizing each of them.** -/
theorem joins_tokenize (format : Format) (pretty : Bool) (sources : List SourceFile) :
    Outcome.Joins (sources.map fun source => tokenize format pretty [source])
      (tokenize format pretty sources) := by
  constructor
  case exitCode =>
    have hsingle (source : SourceFile) :
        decide ((tokenize format pretty [source]).exitCode = 65) =
          (lex source.text).hasErrors := by
      rw [exitCode_tokenize]
      by_cases herrors : (lex source.text).hasErrors <;> simp [herrors]
    rw [exitCode_tokenize, List.any_map]
    simp only [Function.comp_def, hsingle]
  case stdout =>
    have hsingle (source : SourceFile) :
        (tokenize format pretty [source]).stdout = (lex source.text).listing format := by
      rw [stdout_tokenize]
      simp
    rw [stdout_tokenize, List.map_map]
    simp only [Function.comp_def, hsingle]
  case stderr =>
    have hjoins := joins_noticeOf format pretty
      (sources.map fun source => (source, lex source.text))
    rw [← stderr_tokenize, List.map_map] at hjoins
    rw [List.map_map]
    simpa only [Function.comp_def, stderr_tokenize, List.map_cons, List.map_nil] using hjoins

/-- **A run on several files is the sum of its single runs, or nothing**, for any command line that
asks for it. -/
theorem run_batch (files : FileSystem) (job : Job) (arguments : List String)
    (haccepted : Request.ofArguments? arguments = some (.tokenize job)) :
    Batch files job (run files arguments) := by
  have hnamed := named_of_ofArguments? haccepted
  constructor
  case unreadable =>
    intro hsome
    obtain ⟨name, hfirst⟩ := exists_isFirst hsome
    exact ⟨name, hfirst, run_of_error haccepted (readSources_of_unreadable hfirst)⟩
  case notText =>
    intro hreadable hsome
    obtain ⟨name, hfirst⟩ := exists_isFirst hsome
    exact ⟨name, hfirst, run_of_error haccepted (readSources_of_notText hreadable hfirst)⟩
  case texts =>
    intro htexts
    obtain ⟨sources, hholds, hnames⟩ := exists_holds htexts
    obtain ⟨format, pretty, names⟩ := job
    dsimp only at hnames
    subst hnames
    have hsingle : ∀ source ∈ sources,
        run files (Job.alone ⟨format, pretty, sources.map SourceFile.name⟩ source.name).arguments =
          tokenize format pretty [source] := by
      intro source hsource
      have hname : source.name ≠ "" := by
        intro hempty
        exact hnamed.empty_not_mem (List.mem_map.mpr ⟨source, hsource, hempty⟩)
      refine Asks.run_eq ⟨ofArguments?_arguments ⟨?_, ?_⟩, ?_⟩
      · exact List.cons_ne_nil _ _
      · simpa [Job.alone] using hname.symm
      · exact List.forall_mem_singleton.mpr (hholds source hsource)
    rw [Asks.run_eq ⟨haccepted, hholds⟩, List.map_map]
    have hparts := List.map_congr_left hsingle
    exact hparts ▸ joins_tokenize format pretty sources

/-- If the file `c` cannot be read, that is all that is said, although `b`, which is no text, comes
first. Without `c` it is said of `b`, and without `b` the files are listed, the one that is faulty
each time that it is named. -/
theorem batch_mixed :
    let files := FileSystem.ofList
      [("a", "(@".toByteArray), ("b", ⟨#[0xE9]⟩), ("d", ")".toByteArray)]
    let arguments (names : List String) := ["tokenize", "a", "--pretty"] ++ names
    let job (names : List String) : Job := ⟨.text, true, "a" :: names⟩
    (Request.ofArguments? (arguments ["b", "--", "c", "a"]) =
        some (.tokenize (job ["b", "c", "a"])) ∧
      Batch files (job ["b", "c", "a"]) (run files (arguments ["b", "--", "c", "a"])) ∧
      run files (arguments ["b", "--", "c", "a"]) =
        ⟨1, "", .reports [⟨"lox::io", "failed to read 'c'", none⟩]⟩) ∧
    (Request.ofArguments? (arguments ["b", "--", "a"]) = some (.tokenize (job ["b", "a"])) ∧
      Batch files (job ["b", "a"]) (run files (arguments ["b", "--", "a"])) ∧
      run files (arguments ["b", "--", "a"]) =
        ⟨1, "", .reports [⟨"lox::encoding", "'b' is not valid UTF-8", none⟩]⟩) ∧
    (Request.ofArguments? (arguments ["d", "--", "a"]) = some (.tokenize (job ["d", "a"])) ∧
      Batch files (job ["d", "a"]) (run files (arguments ["d", "--", "a"])) ∧
      run files (arguments ["d", "--", "a"]) =
        ⟨65, "LEFT_PAREN ( null\nEOF  null\n" ++ "RIGHT_PAREN ) null\nEOF  null\n" ++
            "LEFT_PAREN ( null\nEOF  null\n",
          .reports
            [⟨"lox::E1001", "[line 1] Error: Unexpected character: @", some ⟨"a", ⟨1, 2⟩⟩⟩,
              ⟨"lox::E1001", "[line 1] Error: Unexpected character: @", some ⟨"a", ⟨1, 2⟩⟩⟩]⟩) := by
  intro files arguments job
  have hunreadable : Request.ofArguments? (arguments ["b", "--", "c", "a"]) =
      some (.tokenize (job ["b", "c", "a"])) := by decide +kernel
  have hnotText : Request.ofArguments? (arguments ["b", "--", "a"]) =
      some (.tokenize (job ["b", "a"])) := by decide +kernel
  have htexts : Request.ofArguments? (arguments ["d", "--", "a"]) =
      some (.tokenize (job ["d", "a"])) := by decide +kernel
  exact ⟨⟨hunreadable, run_batch files _ _ hunreadable, by decide +kernel⟩,
    ⟨hnotText, run_batch files _ _ hnotText, by decide +kernel⟩,
    ⟨htexts, run_batch files _ _ htexts, by decide +kernel⟩⟩

end LoxLexer
