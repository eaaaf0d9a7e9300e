import LoxLexer.Command.Run

/-!
# Command lines that ask for a job

The arguments of `tokenize` are words, each an option with its value or a file, and maybe `--` with
more files behind it. This file says which words make up a command line that asks for a job
(`Phrasing.WellFormed`) and which job that is (`Phrasing.job`). A command line asks for a job if and
only if it has such a phrasing (`ofArguments?_tokenize_iff`). Unless help is asked for, any other
command line is refused (`ofArguments?_tokenize_eq_none`).

The reader keeps a draft of the job. Behind any words the draft is `Draft.ofWords` of them, and this
is what the inductions on the words and on the reader rest on.

So a job that is asked for names files, none of them empty (`named_of_ofArguments?`), and for each
such job there is a command line (`ofArguments?_arguments`), its normal form. Any phrasing runs as
the normal form of its job does (`command_lines_normalized`).
-/

set_option autoImplicit false

namespace LoxLexer

/-! ## Definitions -/

/-- **The job names files**, and no name is empty. -/
structure Job.Named (job : Job) : Prop where
  files_ne_nil : job.files ≠ []
  empty_not_mem : "" ∉ job.files

/-- A command line for a job: the options first, and `--` in front of the files. -/
def Job.arguments (job : Job) : List String :=
  let options := ["--format", job.format.name] ++ if job.pretty then ["--pretty"] else []
  "tokenize" :: (options ++ "--" :: job.files)

/-- A word of a command line, in front of `--`. -/
inductive Word where
  /-- The option and its value, either joined by `=` in one argument or in two of them. -/
  | format (format : Format) (joined : Bool)
  | pretty
  | file (name : String)
deriving DecidableEq

namespace Word

/-- The arguments that the word is written with. -/
def arguments : Word → List String
  | format f joined => if joined then ["--format=" ++ f.name] else ["--format", f.name]
  | pretty => ["--pretty"]
  | file name => [name]

/-- The format that the word asks for. -/
def format? : Word → Option Format
  | format f _ => some f
  | pretty | file _ => none

/-- The file that the word names. -/
def file? : Word → Option String
  | file name => some name
  | format _ _ | pretty => none

/-- A file has a name, and one that begins with a dash is that dash alone. -/
def WellFormed : Word → Prop
  | file name => name ≠ "" ∧ (name = "-" ∨ beginsWith "-" name = false)
  | format _ _ | pretty => True

instance : DecidablePred WellFormed
  | file name =>
      inferInstanceAs (Decidable (name ≠ "" ∧ (name = "-" ∨ beginsWith "-" name = false)))
  | format _ _ | pretty => inferInstanceAs (Decidable True)

end Word

/-- Each option is given at most once. -/
structure OptionsOnce (words : List Word) : Prop where
  format_once : (words.filterMap Word.format?).length ≤ 1
  pretty_once : words.count .pretty ≤ 1

instance (words : List Word) : Decidable (OptionsOnce words) :=
  decidable_of_iff (_ ∧ _) ⟨fun h => ⟨h.1, h.2⟩, fun h => ⟨h.1, h.2⟩⟩

/-- How a job is asked for behind `tokenize`: some words and, if `--` is written, the files behind
it. -/
structure Phrasing where
  words : List Word
  behind : Option (List String)
deriving DecidableEq

namespace Phrasing

/-- The arguments that the phrasing is written with. -/
def arguments (p : Phrasing) : List String :=
  p.words.flatMap Word.arguments ++ p.behind.elim [] ("--" :: ·)

/-- All files, in order. -/
def files (p : Phrasing) : List String := p.words.filterMap Word.file? ++ p.behind.getD []

/-- **The job that is asked for.** Tokens are listed as text unless a format is given. -/
def job (p : Phrasing) : Job :=
  ⟨(p.words.filterMap Word.format?).head?.getD .text, decide (.pretty ∈ p.words), p.files⟩

/-- **A job is asked for**: each option is given at most once, and there is a file. -/
structure WellFormed (p : Phrasing) : Prop where
  wellFormed : ∀ word ∈ p.words, word.WellFormed
  optionsOnce : OptionsOnce p.words
  empty_not_mem : "" ∉ p.behind.getD []
  files_ne_nil : p.files ≠ []

instance (p : Phrasing) : Decidable p.WellFormed :=
  decidable_of_iff (_ ∧ _ ∧ _ ∧ _)
    ⟨fun h => ⟨h.1, h.2.1, h.2.2.1, h.2.2.2⟩, fun h => ⟨h.1, h.2, h.3, h.4⟩⟩

end Phrasing

/-- No argument in front of the first `--` begins with an option for help. -/
def AsksNoHelp (arguments : List String) : Prop :=
  ∀ argument ∈ arguments.takeWhile (· != "--"),
    beginsWith "-h" argument = false ∧ beginsWith "--help" argument = false

instance (arguments : List String) : Decidable (AsksNoHelp arguments) :=
  inferInstanceAs (Decidable (∀ argument ∈ arguments.takeWhile (· != "--"),
    beginsWith "-h" argument = false ∧ beginsWith "--help" argument = false))

/-- **The arguments of `tokenize` are brought to normal form.** -/
structure Normalized (files : FileSystem) (arguments : List String) : Prop where
  /-- What is accepted is a phrasing of a job. -/
  accepted_iff : Request.ofArguments? ("tokenize" :: arguments) ≠ none ↔
    ∃ p : Phrasing, p.WellFormed ∧ p.arguments = arguments
  /-- A phrasing runs as the normal form of its job does. -/
  run_eq : ∀ p : Phrasing, p.WellFormed → p.arguments = arguments →
    run files ("tokenize" :: arguments) = run files p.job.arguments
  /-- All else fails with nothing on standard output. -/
  refused : (∀ p : Phrasing, p.WellFormed → p.arguments ≠ arguments) →
    run files ("tokenize" :: arguments) = ⟨1, "", .usage⟩

/-! ## Arguments -/

/-- What an argument of a given meaning looks like. -/
def Argument.Spells (spelling : String) : Argument → Prop
  | endOfOptions => spelling = "--"
  | help => spelling = "--help" ∨ beginsWith "-h" spelling = true
  | pretty => spelling = "--pretty"
  | format none => spelling = "--format"
  | format (some value) => spelling = "--format=" ++ value
  | file name => name = spelling ∧ (Word.file name).WellFormed
  | refused => True

theorem Argument.spells_ofString (spelling : String) :
    (Argument.ofString spelling).Spells spelling := by
  unfold ofString
  split
  · assumption
  split
  · rename_i hhelp
    rw [Bool.or_eq_true, decide_eq_true_iff] at hhelp
    exact hhelp
  split
  · assumption
  split
  · assumption
  split
  · -- the value is what is left behind the nine characters of the option
    rename_i hformat
    obtain ⟨value, hvalue⟩ := List.isPrefixOf_iff_prefix.mp hformat
    have hdrop : spelling.toList.drop 9 = value := by
      rw [← hvalue]
      rfl
    show spelling = "--format=" ++ String.ofList (spelling.toList.drop 9)
    rw [hdrop]
    apply String.toList_inj.mp
    calc
      spelling.toList = "--format=".toList ++ value := hvalue.symm
      _ = "--format=".toList ++ (String.ofList value).toList := by
        rw [String.toList_ofList (l := value)]
      _ = ("--format=" ++ String.ofList value).toList := String.toList_append.symm
  split
  · rename_i hdash
    exact ⟨rfl, by rw [hdash]; decide, Or.inl hdash⟩
  split
  · trivial
  · rename_i hplain
    rw [Bool.or_eq_true, not_or] at hplain
    exact ⟨rfl, by simpa using hplain.2, Or.inr (Bool.not_eq_true _ ▸ hplain.1)⟩

theorem Argument.spells_of_ofString {spelling : String} {argument : Argument}
    (h : ofString spelling = argument) : argument.Spells spelling :=
  h ▸ spells_ofString spelling

theorem ofName?_name (format : Format) : Format.ofName? format.name = some format := by
  cases format <;> rfl

theorem name_of_ofName? {format : Format} {name : String} (h : Format.ofName? name = some format) :
    name = format.name := by
  have hname := List.find?_some h
  exact (eq_of_beq hname).symm

/-- A dash in front makes an argument an option, unless it is that dash alone. -/
theorem ofString_of_wellFormed {name : String} (h : (Word.file name).WellFormed) :
    Argument.ofString name = .file name := by
  obtain ⟨hne, hdash⟩ := h
  rcases hdash with rfl | hplain
  · rfl
  · -- all other meanings begin with a dash
    have hfront {front : String} (h : "-".toList <+: front.toList) :
        beginsWith front name = false := by
      rw [Bool.eq_false_iff] at hplain ⊢
      intro hbegins
      exact hplain
        (List.isPrefixOf_iff_prefix.mpr (h.trans (List.isPrefixOf_iff_prefix.mp hbegins)))
    have hother {option : String} (h : beginsWith "-" option = true) : name ≠ option := by
      rintro rfl
      rw [hplain] at h
      cases h
    have hshort : beginsWith "-h" name = false := hfront (by decide)
    have hformat : beginsWith "--format=" name = false := hfront (by decide)
    have hhelp : name ≠ "--help" := hother (by decide)
    rw [Argument.ofString, if_neg (hother (by decide)), if_neg, if_neg (hother (by decide)),
      if_neg (hother (by decide)), if_neg, if_neg (hother (by decide)), if_neg]
    · simp [hplain, hne]
    · simp [hformat]
    · simp [hshort, hhelp]

/-! ## Drafts -/

variable {draft next : Draft} {names : List String} {job : Job} {request : Request} {word : Word}
  {words : List Word} {arguments : List String}

namespace Draft

theorem addFiles?_eq_some_iff : draft.addFiles? names = some next ↔
    "" ∉ names ∧ next = { draft with files := draft.files ++ names } := by
  rw [addFiles?]
  split
  · rename_i hempty
    constructor
    · exact nofun
    · rintro ⟨hnamed, -⟩
      exact absurd (by simpa using hempty) hnamed
  · rename_i hnamed
    rw [Option.some.injEq, eq_comm]
    exact (and_iff_right (by simpa using hnamed)).symm

theorem setFormat?_eq_some_iff {name : String} : draft.setFormat? name = some next ↔
    draft.format = none ∧
      ∃ f, Format.ofName? name = some f ∧ next = { draft with format := some f } := by
  rw [setFormat?]
  split
  · rename_i f hnone hname
    rw [hname, Option.some.injEq]
    constructor
    · rintro rfl
      exact ⟨hnone, f, rfl, rfl⟩
    · rintro ⟨-, g, hg, rfl⟩
      rw [Option.some.inj hg]
  · rename_i hgiven
    constructor
    · exact nofun
    · rintro ⟨hnone, f, hname, -⟩
      exact absurd hname (hgiven f hnone)

theorem exists_of_setFormat? {name : String} (h : draft.setFormat? name = some next) :
    ∃ f : Format, name = f.name := by
  obtain ⟨-, f, hname, -⟩ := setFormat?_eq_some_iff.mp h
  exact ⟨f, name_of_ofName? hname⟩

theorem setPretty?_eq_some_iff : draft.setPretty? = some next ↔
    draft.pretty = false ∧ next = { draft with pretty := true } := by
  rw [setPretty?]
  split
  · rename_i hgiven
    simp [hgiven]
  · rename_i hnot
    rw [Option.some.injEq, eq_comm]
    exact (and_iff_right (by simpa using hnot)).symm

theorem request?_eq_some_iff : draft.request? = some request ↔ draft.files ≠ [] ∧
    request = .tokenize ⟨draft.format.getD .text, draft.pretty, draft.files⟩ := by
  rw [request?]
  split
  · rename_i hnone
    simp [List.isEmpty_iff.mp hnone]
  · rename_i hsome
    rw [Option.some.injEq, eq_comm]
    exact (and_iff_right (by simpa using hsome)).symm

/-- Adds a word, which may be refused. -/
def add? (draft : Draft) : Word → Option Draft
  | .format f _ => draft.setFormat? f.name
  | .pretty => draft.setPretty?
  | .file name => draft.addFiles? [name]

/-- The draft that some words make up. -/
def ofWords (words : List Word) : Draft :=
  ⟨(words.filterMap Word.format?).head?, decide (.pretty ∈ words), words.filterMap Word.file?⟩

/-- **A word is added** unless it is an option that is given already. -/
theorem add?_ofWords_eq_some_iff {done : List Word} (hdone : OptionsOnce done)
    (hword : word.WellFormed) : (ofWords done).add? word = some next ↔
      OptionsOnce (done ++ [word]) ∧ next = ofWords (done ++ [word]) := by
  obtain ⟨hformat, hpretty⟩ := hdone
  cases word with
  | format f joined =>
      rw [add?, setFormat?_eq_some_iff, ofName?_name]
      constructor
      · rintro ⟨hnone, g, hg, rfl⟩
        cases hg
        have hnil : done.filterMap Word.format? = [] := List.head?_eq_none_iff.mp hnone
        refine ⟨⟨?_, ?_⟩, ?_⟩
        · simp [hnil, Word.format?]
        · simpa using hpretty
        · simp [ofWords, hnil, Word.format?, Word.file?]
      · rintro ⟨honce, rfl⟩
        have hnil : done.filterMap Word.format? = [] := by
          have h := honce.format_once
          simpa [Word.format?] using h
        refine ⟨?_, f, rfl, ?_⟩
        · simp [ofWords, hnil]
        · simp [ofWords, hnil, Word.format?, Word.file?]
  | pretty =>
      rw [add?, setPretty?_eq_some_iff]
      constructor
      · rintro ⟨hnot, rfl⟩
        have hnot : Word.pretty ∉ done := of_decide_eq_false hnot
        refine ⟨⟨?_, ?_⟩, ?_⟩
        · simpa [List.filterMap_cons, Word.format?] using hformat
        · simp [List.count_eq_zero.mpr hnot]
        · simp [ofWords, Word.format?, Word.file?]
      · rintro ⟨honce, rfl⟩
        have hnot : Word.pretty ∉ done := by
          have h := honce.pretty_once
          exact List.count_eq_zero.mp (by simpa using h)
        refine ⟨decide_eq_false hnot, ?_⟩
        simp [ofWords, Word.format?, Word.file?]
  | file name =>
      rw [add?, addFiles?_eq_some_iff]
      have honce : OptionsOnce (done ++ [.file name]) :=
        ⟨by simpa [List.filterMap_cons, Word.format?] using hformat, by simpa using hpretty⟩
      have hnamed : "" ∉ [name] := by simpa using hword.1.symm
      have hfiles : ofWords (done ++ [.file name]) =
          { ofWords done with files := (ofWords done).files ++ [name] } := by
        simp [ofWords, Word.format?, Word.file?]
      rw [hfiles]
      exact (and_iff_right hnamed).trans (and_iff_right honce).symm

end Draft

/-! ## Words are read -/

variable {done : List Word} {rest : List String}

theorem OptionsOnce.left (h : OptionsOnce (done ++ words)) : OptionsOnce done := by
  obtain ⟨hformat, hpretty⟩ := h
  rw [List.filterMap_append, List.length_append] at hformat
  rw [List.count_append] at hpretty
  exact ⟨Nat.le_of_add_right_le hformat, Nat.le_of_add_right_le hpretty⟩

theorem readTokenize_word (hword : word.WellFormed) :
    readTokenize draft (word.arguments ++ rest) =
      (draft.add? word).bind fun next => readTokenize next rest := by
  cases word with
  | format f joined => cases joined <;> cases f <;> rfl
  | pretty => rfl
  | file name =>
      rw [Word.arguments, List.singleton_append, readTokenize.eq_def]
      simp only [ofString_of_wellFormed hword]
      rfl

/-- The reader takes words one after the other, as long as no option is given again. -/
theorem readTokenize_words (hwords : ∀ word ∈ words, word.WellFormed)
    (honce : OptionsOnce (done ++ words)) :
    readTokenize (.ofWords done) (words.flatMap Word.arguments ++ rest) =
      readTokenize (.ofWords (done ++ words)) rest := by
  induction words generalizing done with
  | nil => simp
  | cons word words ih =>
      rw [List.append_cons] at honce
      have hword : word.WellFormed := hwords word List.mem_cons_self
      have hadd : (Draft.ofWords done).add? word = some (.ofWords (done ++ [word])) :=
        (Draft.add?_ofWords_eq_some_iff honce.left.left hword).mpr ⟨honce.left, rfl⟩
      rw [List.flatMap_cons, List.append_assoc, readTokenize_word hword, hadd, Option.bind_some,
        List.append_cons done word words]
      exact ih (fun word hmem => hwords word (List.mem_cons_of_mem _ hmem)) honce

theorem readTokenize_behind (behind : Option (List String)) :
    readTokenize draft (behind.elim [] ("--" :: ·)) =
      (draft.addFiles? (behind.getD [])).bind Draft.request? := by
  cases behind with
  | none =>
      have hnone : draft.addFiles? [] = some draft := by simp [Draft.addFiles?]
      rw [Option.getD_none, hnone]
      rfl
  | some names => rfl

/-! ## What is read is words -/

theorem AsksNoHelp.right {front : List String} (h : AsksNoHelp (front ++ rest))
    (hfront : "--" ∉ front) : AsksNoHelp rest := by
  intro argument hargument
  refine h argument ?_
  rw [List.takeWhile_append_of_pos]
  · exact List.mem_append_right front hargument
  · intro other hother
    exact bne_iff_ne.mpr (ne_of_mem_of_not_mem hother hfront)

theorem not_asksNoHelp_of_help {argument : String} (h : Argument.ofString argument = .help) :
    ¬ AsksNoHelp (argument :: rest) := by
  have hspells : argument = "--help" ∨ beginsWith "-h" argument = true :=
    Argument.spells_of_ofString h
  have hne : argument ≠ "--" := by
    rintro rfl
    revert hspells
    decide
  intro hasks
  obtain ⟨hshort, hlong⟩ := hasks argument (by simp [hne])
  rcases hspells with rfl | hspells
  · revert hlong
    decide
  · rw [hshort] at hspells
    cases hspells

theorem Word.end_not_mem_arguments (hword : word.WellFormed) : "--" ∉ word.arguments := by
  cases word with
  | format f joined => cases joined <;> cases f <;> decide
  | pretty => decide
  | file name =>
      intro hmem
      obtain rfl := List.mem_singleton.mp hmem
      exact absurd hword.2 (by decide)

/-- How a request comes about behind the words that are done: it is a request for help, or words
and files are written. -/
inductive ReadAs (done : List Word) (arguments : List String) (request : Request) : Prop
  | help (hrequest : request = .help .tokenize) (hasks : ¬ AsksNoHelp arguments)
  | phrasing (p : Phrasing) (harguments : p.arguments = arguments)
      (hwords : ∀ word ∈ p.words, word.WellFormed) (honce : OptionsOnce (done ++ p.words))
      (hread : ((Draft.ofWords (done ++ p.words)).addFiles? (p.behind.getD [])).bind
        Draft.request? = some request)

theorem ReadAs.cons (hword : word.WellFormed) (h : ReadAs (done ++ [word]) rest request) :
    ReadAs done (word.arguments ++ rest) request := by
  cases h with
  | help hrequest hasks =>
      exact .help hrequest fun h => hasks (h.right (Word.end_not_mem_arguments hword))
  | phrasing p harguments hwords honce hread =>
      rw [← List.append_cons] at honce hread
      refine .phrasing ⟨word :: p.words, p.behind⟩ ?_ ?_ honce hread
      · rw [← harguments]
        simp [Phrasing.arguments]
      · exact List.forall_mem_cons.mpr ⟨hword, hwords⟩

/-- The reader looks at a word at a time, each of which is added to those that are done. -/
theorem readAs_of_readTokenize (hdone : OptionsOnce done)
    (h : readTokenize (.ofWords done) arguments = some request) :
    ReadAs done arguments request := by
  generalize hdraft : Draft.ofWords done = draft at h
  fun_induction readTokenize draft arguments generalizing done with
  | case1 draft =>
      subst hdraft
      refine .phrasing ⟨[], none⟩ rfl (by simp) (by simpa using hdone) ?_
      rw [← readTokenize_behind, List.append_nil]
      exact h
  | case2 draft argument rest hend =>
      subst hdraft
      obtain rfl : argument = "--" := Argument.spells_of_ofString hend
      refine .phrasing ⟨[], some rest⟩ rfl (by simp) (by simpa using hdone) ?_
      rw [List.append_nil]
      exact h
  | case3 draft argument rest hhelp =>
      exact .help (Option.some.inj h).symm (not_asksNoHelp_of_help hhelp)
  | case4 draft argument rest hpretty ih =>
      subst hdraft
      obtain ⟨next, hnext, h⟩ := Option.bind_eq_some_iff.mp h
      obtain rfl : argument = "--pretty" := Argument.spells_of_ofString hpretty
      have hword : Word.pretty.WellFormed := trivial
      obtain ⟨honce, rfl⟩ := (Draft.add?_ofWords_eq_some_iff hdone hword).mp hnext
      exact (ih _ honce rfl h).cons hword
  | case5 draft argument rest value hformat ih =>
      subst hdraft
      obtain ⟨next, hnext, h⟩ := Option.bind_eq_some_iff.mp h
      obtain ⟨f, rfl⟩ := Draft.exists_of_setFormat? hnext
      obtain rfl : argument = "--format=" ++ f.name := Argument.spells_of_ofString hformat
      have hword : (Word.format f true).WellFormed := trivial
      obtain ⟨honce, rfl⟩ := (Draft.add?_ofWords_eq_some_iff hdone hword).mp hnext
      exact (ih _ honce rfl h).cons hword
  | case6 => cases h
  | case7 draft argument hformat value rest ih =>
      subst hdraft
      obtain ⟨next, hnext, h⟩ := Option.bind_eq_some_iff.mp h
      obtain ⟨f, rfl⟩ := Draft.exists_of_setFormat? hnext
      obtain rfl : argument = "--format" := Argument.spells_of_ofString hformat
      have hword : (Word.format f false).WellFormed := trivial
      obtain ⟨honce, rfl⟩ := (Draft.add?_ofWords_eq_some_iff hdone hword).mp hnext
      exact (ih _ honce rfl h).cons hword
  | case8 draft argument rest name hfile ih =>
      subst hdraft
      obtain ⟨next, hnext, h⟩ := Option.bind_eq_some_iff.mp h
      obtain ⟨rfl, hword⟩ : name = argument ∧ (Word.file name).WellFormed :=
        Argument.spells_of_ofString hfile
      obtain ⟨honce, rfl⟩ := (Draft.add?_ofWords_eq_some_iff hdone hword).mp hnext
      exact (ih _ honce rfl h).cons hword
  | case9 => cases h

/-! ## Jobs -/

/-- A phrasing is finished if it names files, and files only. -/
theorem Phrasing.read_eq_some_iff (p : Phrasing) :
    ((Draft.ofWords p.words).addFiles? (p.behind.getD [])).bind Draft.request? = some request ↔
      "" ∉ p.behind.getD [] ∧ p.files ≠ [] ∧ request = .tokenize p.job := by
  rw [Option.bind_eq_some_iff]
  constructor
  · rintro ⟨next, hadd, hrequest⟩
    obtain ⟨hnamed, rfl⟩ := Draft.addFiles?_eq_some_iff.mp hadd
    exact ⟨hnamed, Draft.request?_eq_some_iff.mp hrequest⟩
  · rintro ⟨hnamed, hrequest⟩
    exact ⟨_, Draft.addFiles?_eq_some_iff.mpr ⟨hnamed, rfl⟩,
      Draft.request?_eq_some_iff.mpr hrequest⟩

/-- A phrasing asks for its job. -/
theorem Phrasing.WellFormed.ofArguments? {p : Phrasing} (h : p.WellFormed) :
    Request.ofArguments? ("tokenize" :: p.arguments) = some (.tokenize p.job) := by
  have hblank : Draft.blank = .ofWords [] := rfl
  calc
    Request.ofArguments? ("tokenize" :: p.arguments)
      = readTokenize (.ofWords []) p.arguments := rfl
    _ = ((Draft.ofWords p.words).addFiles? (p.behind.getD [])).bind Draft.request? := by
      rw [Phrasing.arguments, readTokenize_words h.wellFormed (by simpa using h.optionsOnce),
        readTokenize_behind, List.nil_append]
    _ = some (.tokenize p.job) := p.read_eq_some_iff.mpr ⟨h.empty_not_mem, h.files_ne_nil, rfl⟩

/-- **What is read is help or the job of a phrasing.** -/
theorem of_ofArguments?_tokenize
    (h : Request.ofArguments? ("tokenize" :: arguments) = some request) :
    (request = .help .tokenize ∧ ¬ AsksNoHelp arguments) ∨
      ∃ p : Phrasing, p.WellFormed ∧ p.arguments = arguments ∧ request = .tokenize p.job := by
  have hread : readTokenize (.ofWords []) arguments = some request := h
  cases readAs_of_readTokenize ⟨by simp, by simp⟩ hread with
  | help hrequest hasks => exact .inl ⟨hrequest, hasks⟩
  | phrasing p harguments hwords honce hread =>
      obtain ⟨hnamed, hfiles, hrequest⟩ := p.read_eq_some_iff.mp hread
      exact .inr ⟨p, ⟨hwords, honce, hnamed, hfiles⟩, harguments, hrequest⟩

/-- **A job is asked for by a phrasing of it**, and by nothing else. -/
theorem ofArguments?_tokenize_iff :
    Request.ofArguments? ("tokenize" :: arguments) = some (.tokenize job) ↔
      ∃ p : Phrasing, p.WellFormed ∧ p.arguments = arguments ∧ p.job = job := by
  constructor
  · intro h
    obtain ⟨hrequest, -⟩ | ⟨p, hp, harguments, hrequest⟩ := of_ofArguments?_tokenize h
    · cases hrequest
    · cases hrequest
      exact ⟨p, hp, harguments, rfl⟩
  · rintro ⟨p, hp, rfl, rfl⟩
    exact hp.ofArguments?

/-- Arguments that neither ask for help nor for a job are refused. -/
theorem ofArguments?_tokenize_eq_none (hasks : AsksNoHelp arguments)
    (h : ∀ p : Phrasing, p.WellFormed → p.arguments ≠ arguments) :
    Request.ofArguments? ("tokenize" :: arguments) = none := by
  rw [Option.eq_none_iff_forall_ne_some]
  intro request hrequest
  obtain ⟨-, hhelp⟩ | ⟨p, hp, harguments, -⟩ := of_ofArguments?_tokenize hrequest
  · exact hhelp hasks
  · exact h p hp harguments

theorem Phrasing.WellFormed.named {p : Phrasing} (h : p.WellFormed) : p.job.Named := by
  refine ⟨h.files_ne_nil, fun hmem => ?_⟩
  rcases List.mem_append.mp hmem with hmem | hmem
  · obtain ⟨word, hword, hname⟩ := List.mem_filterMap.mp hmem
    cases word with
    | file name =>
        cases hname
        exact (h.wellFormed _ hword).1 rfl
    | format f joined => cases hname
    | pretty => cases hname
  · exact h.empty_not_mem hmem

/-- **A job that a command line asks for names its files.** -/
theorem named_of_ofArguments? (h : Request.ofArguments? arguments = some (.tokenize job)) :
    job.Named := by
  cases arguments with
  | nil => cases h
  | cons command rest =>
      by_cases hcommand : command = "tokenize"
      · subst hcommand
        obtain ⟨p, hp, -, rfl⟩ := ofArguments?_tokenize_iff.mp h
        exact hp.named
      · -- no other command asks for a job
        exfalso
        rw [Request.ofArguments?, if_neg hcommand] at h
        split at h
        · unfold readHelp at h
          split at h <;> cases h
        · split at h
          · cases h
          · split at h <;> cases h

/-- The options first, and `--` in front of the files. -/
def Job.phrasing (job : Job) : Phrasing :=
  ⟨.format job.format false :: if job.pretty then [.pretty] else [], some job.files⟩

theorem Job.arguments_phrasing (job : Job) :
    "tokenize" :: job.phrasing.arguments = job.arguments := by
  obtain ⟨format, pretty, files⟩ := job
  cases pretty <;> rfl

theorem Job.job_phrasing (job : Job) : job.phrasing.job = job := by
  obtain ⟨format, pretty, files⟩ := job
  cases pretty <;> rfl

theorem Job.Named.phrasing (h : job.Named) : job.phrasing.WellFormed := by
  obtain ⟨format, pretty, files⟩ := job
  have honce : OptionsOnce (Job.phrasing ⟨format, pretty, files⟩).words := by
    cases pretty <;> exact ⟨Nat.le_refl 1, by simp [Job.phrasing]⟩
  refine ⟨?_, honce, h.empty_not_mem, ?_⟩
  · cases pretty <;> simp [Job.phrasing, Word.WellFormed]
  · cases pretty <;> exact h.files_ne_nil

/-- **There is a command line for each job** that names its files. -/
theorem ofArguments?_arguments (h : job.Named) :
    Request.ofArguments? job.arguments = some (.tokenize job) := by
  rw [← job.arguments_phrasing]
  exact h.phrasing.ofArguments?.trans (by rw [job.job_phrasing])

/-! ## The normal form -/

/-- **Command lines have a normal form**, which runs its job. Unless help is asked for, other command
lines are either refused or run as a normal form does. -/
theorem command_lines_normalized (files : FileSystem) :
    (∀ job : Job, job.Named → Request.ofArguments? job.arguments = some (.tokenize job) ∧
      run files job.arguments = job.run files) ∧
    ∀ arguments, AsksNoHelp arguments → Normalized files arguments := by
  have hnormal (job : Job) (h : job.Named) : run files job.arguments = job.run files :=
    run_of_accepted (ofArguments?_arguments h)
  refine ⟨fun job h => ⟨ofArguments?_arguments h, hnormal job h⟩, fun arguments hasks => ?_⟩
  constructor
  case accepted_iff =>
    constructor
    · intro hsome
      by_cases h : ∃ p : Phrasing, p.WellFormed ∧ p.arguments = arguments
      · exact h
      · exact absurd (ofArguments?_tokenize_eq_none hasks fun p hp heq => h ⟨p, hp, heq⟩) hsome
    · rintro ⟨p, hp, rfl⟩
      rw [hp.ofArguments?]
      exact Option.some_ne_none _
  case run_eq =>
    rintro p hp rfl
    calc
      run files ("tokenize" :: p.arguments) = p.job.run files := run_of_accepted hp.ofArguments?
      _ = run files p.job.arguments := (hnormal p.job hp.named).symm
  case refused =>
    intro h
    exact run_of_refused (ofArguments?_tokenize_eq_none hasks h)

/-- The options stand between the files, `-` is a file, and so is all behind the first `--`. -/
theorem normalized_mixed :
    let files : FileSystem := fun _ => some ByteArray.empty
    let p : Phrasing := ⟨[.file "a", .pretty, .file "-", .format .text true], some ["--", "-h"]⟩
    p.WellFormed ∧ AsksNoHelp p.arguments ∧
      p.arguments = ["a", "--pretty", "-", "--format=text", "--", "--", "-h"] ∧
      p.job.arguments = ["tokenize", "--format", "text", "--pretty", "--", "a", "-", "--", "-h"] ∧
      run files ("tokenize" :: p.arguments) = run files p.job.arguments ∧
      run files p.job.arguments =
        ⟨0, "EOF  null\nEOF  null\nEOF  null\nEOF  null\n", .reports []⟩ := by
  intro files p
  have hp : p.WellFormed := by decide +kernel
  have hasks : AsksNoHelp p.arguments := by decide +kernel
  have hnormal := (command_lines_normalized files).2 p.arguments hasks
  exact ⟨hp, hasks, rfl, rfl, hnormal.run_eq p hp rfl, by decide +kernel⟩

end LoxLexer
