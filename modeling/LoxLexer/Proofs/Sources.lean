import Mathlib.Data.List.Basic
import LoxLexer.Command.Run

/-!
# Sources in files

Reading sources and decoding them are two passes over all files, each of which stops at the first
failure (`mapM_of_isFirst`). So a file that cannot be read is reported before one that is not text,
wherever the two stand. If no pass fails, what is left of the run is to tokenize the sources
(`Asks.run_eq`), each of them by itself.
-/

set_option autoImplicit false

namespace LoxLexer

/-! ## Definitions -/

/-- `a` is the first of the items that the property holds of. -/
def IsFirst {α : Type} (p : α → Prop) (items : List α) (a : α) : Prop :=
  ∃ before after, items = before ++ a :: after ∧ p a ∧ ∀ b ∈ before, ¬ p b

namespace FileSystem

/-- The file cannot be read. -/
def Unreadable (files : FileSystem) (name : String) : Prop := files name = none

/-- The file can be read, and its bytes are well-formed UTF-8. -/
def HoldsText (files : FileSystem) (name : String) : Prop :=
  ∃ bytes, files name = some bytes ∧ bytes.IsValidUTF8

/-- The files hold the texts of some sources under their names. -/
def Holds (files : FileSystem) (sources : List SourceFile) : Prop :=
  ∀ source ∈ sources, files source.name = some source.text.toByteArray

/-- The files of a list, each with its name and its bytes. -/
def ofList (entries : List (String × ByteArray)) : FileSystem := fun name => entries.lookup name

end FileSystem

/-- The command line asks for the sources, and the files hold them. -/
structure Asks (files : FileSystem) (arguments : List String) (format : Format) (pretty : Bool)
    (sources : List SourceFile) : Prop where
  accepted : Request.ofArguments? arguments =
    some (.tokenize ⟨format, pretty, sources.map SourceFile.name⟩)
  holds : files.Holds sources

/-! ## Passes over a list -/

section Passes

variable {α β ε : Type} {f : α → Except ε β} {items : List α} {a : α}

theorem exists_isFirst {p : α → Prop} (h : ∃ a ∈ items, p a) : ∃ a, IsFirst p items a := by
  induction items with
  | nil =>
      obtain ⟨a, hmem, -⟩ := h
      cases hmem
  | cons b items ih =>
      by_cases hb : p b
      · exact ⟨b, [], items, rfl, hb, nofun⟩
      · obtain ⟨a, hmem, ha⟩ := h
        have hlater : a ∈ items := by
          rcases List.mem_cons.mp hmem with rfl | hlater
          · exact absurd ha hb
          · exact hlater
        obtain ⟨c, before, after, rfl, hc, hbefore⟩ := ih ⟨a, hlater, ha⟩
        exact ⟨c, b :: before, after, rfl, hc, List.forall_mem_cons.mpr ⟨hb, hbefore⟩⟩

/-- A pass in which nothing fails. -/
theorem mapM_of_forall_ok {g : α → β} (h : ∀ a ∈ items, f a = .ok (g a)) :
    items.mapM f = .ok (items.map g) := by
  induction items with
  | nil => rfl
  | cons a items ih =>
      obtain ⟨ha, hitems⟩ := List.forall_mem_cons.mp h
      rw [List.mapM_cons, ha, ih hitems]
      rfl

/-- **A pass stops at the first failure**, and whatever is behind makes no difference. -/
theorem mapM_of_isFirst {p : α → Prop} {e : ε} (h : IsFirst p items a) (ha : f a = .error e)
    (hok : ∀ b ∈ items, ¬ p b → ∃ result, f b = .ok result) : items.mapM f = .error e := by
  obtain ⟨before, after, rfl, -, hbefore⟩ := h
  induction before with
  | nil =>
      rw [List.nil_append, List.mapM_cons, ha]
      rfl
  | cons b before ih =>
      obtain ⟨hb, hbefore⟩ := List.forall_mem_cons.mp hbefore
      obtain ⟨hokb, hok⟩ := List.forall_mem_cons.mp hok
      obtain ⟨result, hresult⟩ := hokb hb
      rw [List.cons_append, List.mapM_cons, hresult, ih hok hbefore]
      rfl

end Passes

/-! ## Reading sources -/

variable {files : FileSystem} {names : List String} {name : String}

theorem decodeText_of_isValidUTF8 {bytes : ByteArray} (h : bytes.IsValidUTF8) :
    decodeText (name, bytes) = .ok ⟨name, String.fromUTF8 bytes h⟩ := by
  rw [decodeText, String.fromUTF8?, dif_pos h]

theorem decodeText_of_not_isValidUTF8 {bytes : ByteArray} (h : ¬ bytes.IsValidUTF8) :
    decodeText (name, bytes) = .error (.notText name) := by
  rw [decodeText, String.fromUTF8?, dif_neg h]

/-- If a file cannot be read, it does not matter which files hold text. -/
theorem readSources_of_unreadable (h : IsFirst files.Unreadable names name) :
    readSources files names = .error (.unreadable name) := by
  have hfirst : readBytes files name = .error (.unreadable name) := by
    obtain ⟨before, after, -, hname, -⟩ := h
    rw [readBytes, show files name = none from hname]
  have hpass : names.mapM (readBytes files) = .error (.unreadable name) := by
    refine mapM_of_isFirst h hfirst fun other _ hother => ?_
    obtain ⟨bytes, hbytes⟩ := Option.ne_none_iff_exists'.mp hother
    exact ⟨(other, bytes), by rw [readBytes, hbytes]⟩
  rw [readSources, hpass]
  rfl

/-- If all files can be read, what is left to do is to decode them in order. -/
theorem readSources_of_readable (h : ∀ name ∈ names, ¬ files.Unreadable name) :
    readSources files names =
      names.mapM fun name => decodeText (name, (files name).getD ByteArray.empty) := by
  have hpass : names.mapM (readBytes files) =
      .ok (names.map fun name => (name, (files name).getD ByteArray.empty)) := by
    refine mapM_of_forall_ok fun name hname => ?_
    obtain ⟨bytes, hbytes⟩ := Option.ne_none_iff_exists'.mp (h name hname)
    rw [readBytes, hbytes, Option.getD_some]
  rw [readSources, hpass]
  exact List.mapM_map

theorem readSources_of_notText (hreadable : ∀ name ∈ names, ¬ files.Unreadable name)
    (h : IsFirst (¬ files.HoldsText ·) names name) :
    readSources files names = .error (.notText name) := by
  have hdecode : ∀ other ∈ names, ∃ bytes, files other = some bytes := fun other hother =>
    Option.ne_none_iff_exists'.mp (hreadable other hother)
  rw [readSources_of_readable hreadable]
  refine mapM_of_isFirst h ?_ fun other hother htext => ?_
  · obtain ⟨before, after, hnames, hname, -⟩ := h
    obtain ⟨bytes, hbytes⟩ := hdecode name (hnames ▸ List.mem_append_right _ (List.mem_cons_self ..))
    rw [hbytes, Option.getD_some]
    exact decodeText_of_not_isValidUTF8 fun hvalid => hname ⟨bytes, hbytes, hvalid⟩
  · obtain ⟨bytes, hbytes, hvalid⟩ := not_not.mp htext
    exact ⟨_, by rw [hbytes, Option.getD_some, decodeText_of_isValidUTF8 hvalid]⟩

/-- Sources that the files hold are read. -/
theorem readSources_of_holds {sources : List SourceFile} (h : files.Holds sources) :
    readSources files (sources.map SourceFile.name) = .ok sources := by
  have hreadable : ∀ name ∈ sources.map SourceFile.name, ¬ files.Unreadable name := by
    intro name hname hnone
    obtain ⟨source, hsource, rfl⟩ := List.mem_map.mp hname
    rw [FileSystem.Unreadable, h source hsource] at hnone
    cases hnone
  have hdecode : ∀ source ∈ sources,
      decodeText (source.name, (files source.name).getD ByteArray.empty) = .ok (id source) := by
    intro source hsource
    rw [h source hsource, Option.getD_some, decodeText_of_isValidUTF8 source.text.isValidUTF8]
    rfl
  rw [readSources_of_readable hreadable, List.mapM_map]
  refine (mapM_of_forall_ok hdecode).trans ?_
  rw [List.map_id]

/-- Files that hold text hold some sources. -/
theorem exists_holds (h : ∀ name ∈ names, files.HoldsText name) :
    ∃ sources : List SourceFile, files.Holds sources ∧ sources.map SourceFile.name = names := by
  induction names with
  | nil => exact ⟨[], nofun, rfl⟩
  | cons name names ih =>
      obtain ⟨⟨bytes, hbytes, hvalid⟩, hnames⟩ := List.forall_mem_cons.mp h
      obtain ⟨sources, hsources, rfl⟩ := ih hnames
      refine ⟨⟨name, String.fromUTF8 bytes hvalid⟩ :: sources, ?_, rfl⟩
      exact List.forall_mem_cons.mpr ⟨hbytes, hsources⟩

/-! ## Tokenizing sources -/

variable {format : Format} {pretty : Bool} {sources : List SourceFile} {arguments : List String}

/-- **A run that is asked for sources** tokenizes them. -/
theorem Asks.run_eq (h : Asks files arguments format pretty sources) :
    run files arguments = tokenize format pretty sources := by
  rw [run_of_accepted h.accepted, Job.run, readSources_of_holds h.holds]

/-- A run that cannot read its sources says so, and nothing else. -/
theorem run_of_error {job : Job} {report : Report}
    (haccepted : Request.ofArguments? arguments = some (.tokenize job))
    (h : readSources files job.files = .error report) :
    run files arguments = ⟨1, "", .reports [report]⟩ := by
  rw [run_of_accepted haccepted, Job.run, h]
  rfl

/-- Each source is lexed by itself. -/
theorem zip_lexAll (sources : List SourceFile) :
    sources.zip (lexAll (sources.map SourceFile.text)) =
      sources.map fun source => (source, lex source.text) := by
  induction sources with
  | nil => rfl
  | cons source sources ih => exact congrArg _ ih

theorem exitCode_tokenize (format : Format) (pretty : Bool) (sources : List SourceFile) :
    (tokenize format pretty sources).exitCode =
      if sources.any fun source => (lex source.text).hasErrors then 65 else 0 := by
  rw [tokenize, zip_lexAll]
  simp only [List.any_map]
  rfl

theorem stdout_tokenize (format : Format) (pretty : Bool) (sources : List SourceFile) :
    (tokenize format pretty sources).stdout =
      String.join (sources.map fun source => (lex source.text).listing format) := by
  rw [tokenize, zip_lexAll]
  simp only [List.map_map]
  rfl

theorem stderr_tokenize (format : Format) (pretty : Bool) (sources : List SourceFile) :
    (tokenize format pretty sources).stderr =
      noticeOf format pretty (sources.map fun source => (source, lex source.text)) := by
  rw [tokenize, zip_lexAll]

theorem stdout_tokenize_text (pretty : Bool) (sources : List SourceFile) :
    (tokenize .text pretty sources).stdout =
      unlines (sources.flatMap fun source => (lex source.text).tokens.map Token.text) := by
  rw [stdout_tokenize, unlines_flatMap]
  rfl

theorem stderr_tokenize_plain (sources : List SourceFile) :
    (tokenize .text false sources).stderr = .plain (unlines
      (sources.flatMap fun source => (lex source.text).diagnostics.map Diagnostic.text)) := by
  rw [stderr_tokenize]
  simp only [noticeOf, List.flatMap_map]

theorem stderr_tokenize_pretty (sources : List SourceFile) :
    (tokenize .text true sources).stderr = .reports (sources.flatMap fun source =>
      (lex source.text).diagnostics.map (Report.ofDiagnostic source.name source.text)) := by
  rw [stderr_tokenize]
  simp only [noticeOf, List.flatMap_map]

end LoxLexer
