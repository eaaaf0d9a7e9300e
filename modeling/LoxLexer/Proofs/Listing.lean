import Mathlib.Data.List.Basic
import LoxLexer.Proofs.Sources
import LoxLexer.Proofs.Spelling

/-!
# A listing can be taken apart again

The lines of a listing run into each other: a string stands in its line as it is, with all its line
feeds and with whatever looks like another line. A listing tells its tokens all the same, since the
line of a token tells where it ends (`selfDelimiting_token`): the kind of the token comes first, and
it says how to read on. A string is read up to its closing quote, and then it is known how much of
the line is left. The end of a source is a token too, so a listing tells where the next one begins
(`selfDelimiting_tokens`).

Hence the listing of several sources tells how many sources there are and which tokens each of them
holds, and the lines about their diagnostics tell these diagnostics (`listing_decodable`).
-/

set_option autoImplicit false

namespace LoxLexer

/-! ## Definitions -/

/-- What a listing shows of a token. -/
def Token.shown (t : Token) : Kind × String × Literal := (t.kind, t.lexeme, t.literal)

/-- What the line about a diagnostic shows of it. -/
def Diagnostic.shown (d : Diagnostic) : UInt32 × UInt32 × String := (d.line, d.code, d.message)

/-- The characters of a line, up to the line feed that ends it. -/
def lineChars (text : String) : List Char := text.toList ++ ['\n']

/-- **Each item tells what it shows and where it ends**, whatever is written behind it. -/
def SelfDelimiting {α β : Type} (p : α → Prop) (write : α → List Char) (shown : α → β) : Prop :=
  ∀ a b rest rest', p a → p b → write a ++ rest = write b ++ rest' →
    shown a = shown b ∧ rest = rest'

/-! ## Items one after the other -/

section Items

variable {α β : Type} {p : α → Prop} {write : α → List Char} {shown : α → β}

/-- **Items that tell where they end** can be written one after the other. -/
theorem SelfDelimiting.map_eq (h : SelfDelimiting p write shown) (hne : ∀ a, p a → write a ≠ []) :
    ∀ items items' : List α, (∀ a ∈ items, p a) → (∀ a ∈ items', p a) →
      items.flatMap write = items'.flatMap write → items.map shown = items'.map shown := by
  intro items
  induction items with
  | nil =>
      intro items' _ hitems' htext
      cases items' with
      | nil => rfl
      | cons b items' =>
          have hempty : write b ++ items'.flatMap write = [] := htext.symm
          exact absurd (List.append_eq_nil_iff.mp hempty).1 (hne b (List.forall_mem_cons.mp hitems').1)
  | cons a items ih =>
      intro items' hitems hitems' htext
      obtain ⟨ha, hitems⟩ := List.forall_mem_cons.mp hitems
      cases items' with
      | nil =>
          have hempty : write a ++ items.flatMap write = [] := htext
          exact absurd (List.append_eq_nil_iff.mp hempty).1 (hne a ha)
      | cons b items' =>
          obtain ⟨hb, hitems'⟩ := List.forall_mem_cons.mp hitems'
          obtain ⟨hshown, hbehind⟩ := h a b _ _ ha hb htext
          rw [List.map_cons, List.map_cons, hshown, ih items' hitems hitems' hbehind]

/-- **A list that ends with its first last item** tells where it ends, if its items do and show
whether they are last. -/
theorem SelfDelimiting.ended (h : SelfDelimiting p write shown) {last : α → Prop}
    (hlast : ∀ a b, shown a = shown b → (last a ↔ last b)) :
    SelfDelimiting (fun items : List α => (∀ a ∈ items, p a) ∧ Ended last items)
      (List.flatMap write) (List.map shown) := by
  rintro items items' rest rest' ⟨hp, hended⟩ ⟨hp', hended'⟩ htext
  have hhead {a b : α} {items items' : List α} (hp : ∀ c ∈ a :: items, p c)
      (hp' : ∀ c ∈ b :: items', p c)
      (htext : (a :: items).flatMap write ++ rest = (b :: items').flatMap write ++ rest') :
      shown a = shown b ∧ items.flatMap write ++ rest = items'.flatMap write ++ rest' := by
    rw [List.flatMap_cons, List.flatMap_cons, List.append_assoc, List.append_assoc] at htext
    exact h a b _ _ (hp a (List.mem_cons_self ..)) (hp' b (List.mem_cons_self ..)) htext
  induction hended generalizing items' with
  | stop ha =>
      cases hended' with
      | stop hb =>
          obtain ⟨hshown, hrest⟩ := hhead hp hp' htext
          exact ⟨by rw [List.map_singleton, List.map_singleton, hshown], hrest⟩
      | more hb hlater =>
          obtain ⟨hshown, -⟩ := hhead hp hp' htext
          exact absurd ((hlast _ _ hshown).mp ha) hb
  | more ha hlater ih =>
      cases hended' with
      | stop hb =>
          obtain ⟨hshown, -⟩ := hhead hp hp' htext
          exact absurd ((hlast _ _ hshown).mpr hb) ha
      | more hb hlater' =>
          obtain ⟨hshown, hbehind⟩ := hhead hp hp' htext
          obtain ⟨hsame, hrest⟩ := ih _ (List.forall_mem_cons.mp hp).2
            (List.forall_mem_cons.mp hp').2 hlater' hbehind
          exact ⟨by rw [List.map_cons, List.map_cons, hshown, hsame], hrest⟩

end Items

/-! ## Tokens -/

theorem space_not_mem_name (kind : Kind) : ' ' ∉ kind.name.toList := by
  cases kind with
  | punctuator p => cases p <;> decide
  | string => decide
  | number => decide
  | eof => decide

theorem Kind.name_inj {kind kind' : Kind} (h : kind.name = kind'.name) : kind = kind' := by
  have hfound := kind.ofName_name
  rw [h, kind'.ofName_name] at hfound
  exact (Option.some.inj hfound).symm

theorem toList_text_token (t : Token) :
    t.text.toList = t.kind.name.toList ++ ' ' :: (t.lexeme.toList ++ ' ' :: t.literal.text.toList) := by
  simp [Token.text]

/-- **Behind its kind, the line of a token tells the lexeme and the literal**, and where it ends. -/
theorem Spelled.inj {kind : Kind} {lexeme lexeme' : String} {literal literal' : Literal}
    {rest rest' : List Char} (h : Spelled kind lexeme literal) (h' : Spelled kind lexeme' literal')
    (htext : lexeme.toList ++ ' ' :: (literal.text.toList ++ '\n' :: rest) =
      lexeme'.toList ++ ' ' :: (literal'.text.toList ++ '\n' :: rest')) :
    lexeme = lexeme' ∧ literal = literal' ∧ rest = rest' := by
  -- once lexeme and literal are known, so is the length of the line
  have hrest {lexeme : String} {literal : Literal}
      (htext : lexeme.toList ++ ' ' :: (literal.text.toList ++ '\n' :: rest) =
        lexeme.toList ++ ' ' :: (literal.text.toList ++ '\n' :: rest')) : rest = rest' := by
    have hbehind := List.tail_eq_of_cons_eq (List.append_cancel_left htext)
    exact List.tail_eq_of_cons_eq (List.append_cancel_left hbehind)
  cases h with
  | punctuator p =>
      cases h'
      exact ⟨rfl, rfl, hrest htext⟩
  | @string body hclosed =>
      cases h' with
      | @string body' hclosed' =>
          have hsame : body = body' := by
            simp only [String.toList_ofList, List.cons_append, List.cons.injEq, true_and,
              List.append_assoc] at htext
            exact (append_cons_inj_of_not_mem hclosed hclosed' htext).1
          subst hsame
          exact ⟨rfl, rfl, hrest htext⟩
  | @number n hn =>
      cases h' with
      | @number n' hn' =>
          have hspace {n : Numeral} (hn : n.WellFormed) : ' ' ∉ n.text :=
            hn.not_mem_text (by decide) (by decide)
          have hsame : n = n' := by
            rw [String.toList_ofList, String.toList_ofList] at htext
            have hdigits := (append_cons_inj_of_not_mem (hspace hn) (hspace hn') htext).1
            have hread := Numeral.ofText?_text hn
            rw [hdigits, Numeral.ofText?_text hn'] at hread
            exact (Option.some.inj hread).symm
          subst hsame
          exact ⟨rfl, rfl, hrest htext⟩
  | eof =>
      cases h'
      exact ⟨rfl, rfl, hrest htext⟩

/-- **The line of a token tells the token**, and where it ends. -/
theorem selfDelimiting_token :
    SelfDelimiting (fun t : Token => Spelled t.kind t.lexeme t.literal)
      (fun t => lineChars t.text) Token.shown := by
  intro t t' rest rest' hspelled hspelled' htext
  simp only [lineChars, toList_text_token, List.append_assoc, List.cons_append, List.nil_append]
    at htext
  obtain ⟨hname, hbehind⟩ := append_cons_inj_of_not_mem (space_not_mem_name t.kind)
    (space_not_mem_name t'.kind) htext
  have hkind : t.kind = t'.kind := Kind.name_inj (String.toList_inj.mp hname)
  rw [← hkind] at hspelled'
  obtain ⟨hlexeme, hliteral, hrest⟩ := hspelled.inj hspelled' hbehind
  exact ⟨by rw [Token.shown, Token.shown, hkind, hlexeme, hliteral], hrest⟩

/-- **The listing of a source tells its tokens**, and where it ends. -/
theorem selfDelimiting_tokens :
    SelfDelimiting (fun tokens : List Token =>
        (∀ t ∈ tokens, Spelled t.kind t.lexeme t.literal) ∧ Ended (fun t => t.kind = .eof) tokens)
      (List.flatMap fun t => lineChars t.text) (List.map Token.shown) := by
  refine selfDelimiting_token.ended ?_
  intro t t' hshown
  have hkind : t.kind = t'.kind := congrArg Prod.fst hshown
  rw [hkind]

/-! ## Diagnostics -/

theorem toList_text_diagnostic (d : Diagnostic) :
    d.text.toList =
      "[line ".toList ++ (Nat.toDigits 10 d.line.toNat ++ ("] Error: ".toList ++ d.message.toList)) := by
  rw [Diagnostic.text, Nat.repr_eq_ofList_toDigits]
  simp

/-- **The line about a diagnostic tells the diagnostic**, and where it ends. -/
theorem selfDelimiting_diagnostic :
    SelfDelimiting (fun d : Diagnostic => Worded d.code d.message)
      (fun d => lineChars d.text) Diagnostic.shown := by
  intro d d' rest rest' hworded hworded' htext
  have hbracket (d : Diagnostic) (rest : List Char) :
      lineChars d.text ++ rest = "[line ".toList ++ (Nat.toDigits 10 d.line.toNat ++
        ']' :: (" Error: ".toList ++ (d.message.toList ++ '\n' :: rest))) := by
    simp [lineChars, toList_text_diagnostic]
  rw [hbracket, hbracket] at htext
  obtain ⟨hnumber, hbehind⟩ := toDigits_append_cons_inj (by decide)
    (List.append_cancel_left htext)
  have hline : d.line = d'.line := UInt32.toNat_inj.mp hnumber
  obtain ⟨hwords, hrest⟩ := append_cons_inj_of_not_mem hworded.lineFeed_not_mem
    hworded'.lineFeed_not_mem (List.append_cancel_left hbehind)
  have hmessage : d.message = d'.message := String.toList_inj.mp hwords
  rw [hmessage] at hworded
  have hcode : d.code = d'.code := hworded.code_eq hworded'
  exact ⟨by rw [Diagnostic.shown, Diagnostic.shown, hline, hcode, hmessage], hrest⟩

/-! ## Whole listings -/

/-- What a listing shows of the tokens of a source. -/
def SourceFile.shownTokens (source : SourceFile) : List (Kind × String × Literal) :=
  (lex source.text).tokens.map Token.shown

/-- What the lines about diagnostics show of those of a source. -/
def SourceFile.shownDiagnostics (source : SourceFile) : List (UInt32 × UInt32 × String) :=
  (lex source.text).diagnostics.map Diagnostic.shown

variable {files files' : FileSystem} {arguments arguments' : List String} {pretty pretty' : Bool}
variable {sources sources' : List SourceFile}

theorem toList_stdout_tokenize (pretty : Bool) (sources : List SourceFile) :
    (tokenize .text pretty sources).stdout.toList =
      (sources.map fun source => (lex source.text).tokens).flatMap
        (List.flatMap fun t => lineChars t.text) := by
  rw [stdout_tokenize_text, toList_unlines, List.flatMap_assoc, List.flatMap_map]
  simp only [List.flatMap_map]
  rfl

theorem shownTokens_eq (h : (tokenize .text pretty sources).stdout =
      (tokenize .text pretty' sources').stdout) :
    sources.map SourceFile.shownTokens = sources'.map SourceFile.shownTokens := by
  have htokens (sources : List SourceFile) : ∀ tokens ∈ sources.map fun s => (lex s.text).tokens,
      (∀ t ∈ tokens, Spelled t.kind t.lexeme t.literal) ∧
        Ended (fun t => t.kind = .eof) tokens := by
    intro tokens hmem
    obtain ⟨source, -, rfl⟩ := List.mem_map.mp hmem
    exact ⟨spelled_of_mem_tokens source.text, ended_tokens source.text⟩
  have htext := congrArg String.toList h
  rw [toList_stdout_tokenize, toList_stdout_tokenize] at htext
  have hsame := selfDelimiting_tokens.map_eq ?_ _ _ (htokens sources) (htokens sources') htext
  · rw [List.map_map, List.map_map] at hsame
    exact hsame
  · rintro tokens ⟨-, hended⟩ hnil
    cases hended <;> simp [lineChars] at hnil

theorem shownDiagnostics_eq (h : (tokenize .text false sources).stderr =
      (tokenize .text false sources').stderr) :
    sources.flatMap SourceFile.shownDiagnostics =
      sources'.flatMap SourceFile.shownDiagnostics := by
  have hworded (sources : List SourceFile) :
      ∀ d ∈ sources.flatMap fun source => (lex source.text).diagnostics,
        Worded d.code d.message := by
    intro d hd
    obtain ⟨source, -, hd⟩ := List.mem_flatMap.mp hd
    exact worded_of_mem_diagnostics source.text d hd
  have hne : ∀ d : Diagnostic, Worded d.code d.message → lineChars d.text ≠ [] := by
    intro d _
    simp [lineChars]
  rw [stderr_tokenize_plain, stderr_tokenize_plain, Notice.plain.injEq, ← List.map_flatMap,
    ← List.map_flatMap] at h
  have htext := congrArg String.toList h
  rw [toList_unlines, toList_unlines, List.flatMap_map, List.flatMap_map] at htext
  have hsame := selfDelimiting_diagnostic.map_eq hne _ _ (hworded sources) (hworded sources') htext
  rw [List.map_flatMap, List.map_flatMap] at hsame
  exact hsame

/-- **A listing can be taken apart again**: it tells how many sources there are and the tokens of
each, and the lines about diagnostics tell the diagnostics of all sources in turn. -/
theorem listing_decodable (h : Asks files arguments .text pretty sources)
    (h' : Asks files' arguments' .text pretty' sources') :
    ((run files arguments).stdout = (run files' arguments').stdout →
      sources.length = sources'.length ∧
        sources.map SourceFile.shownTokens = sources'.map SourceFile.shownTokens) ∧
    (pretty = false → pretty' = false →
      (run files arguments).stderr = (run files' arguments').stderr →
        sources.flatMap SourceFile.shownDiagnostics =
          sources'.flatMap SourceFile.shownDiagnostics) := by
  rw [h.run_eq, h'.run_eq]
  constructor
  · intro hstdout
    have hsame := shownTokens_eq hstdout
    exact ⟨by simpa using congrArg List.length hsame, hsame⟩
  · rintro rfl rfl hstderr
    exact shownDiagnostics_eq hstderr

/-- A string that looks like the end of a source, followed by a stray character, and then a second
source: whatever stands between the tokens is not listed. -/
theorem decodable_lookalike :
    let sources : List SourceFile := [⟨"a", "\"\nEOF  null\n\"@"⟩, ⟨"b", "1"⟩]
    let sources' : List SourceFile := [⟨"a", " \"\nEOF  null\n\" @"⟩, ⟨"c", "1 // one"⟩]
    let holding (sources : List SourceFile) := FileSystem.ofList
      (sources.map fun source => (source.name, source.text.toByteArray))
    let files := holding sources
    let files' := holding sources'
    Asks files ["tokenize", "a", "b"] .text false sources ∧
      Asks files' ["tokenize", "--format", "text", "a", "c"] .text false sources' ∧
      sources.map SourceFile.shownTokens = sources'.map SourceFile.shownTokens ∧
      sources.flatMap SourceFile.shownDiagnostics =
        sources'.flatMap SourceFile.shownDiagnostics := by
  intro sources sources' holding files files'
  have hasks : Asks files ["tokenize", "a", "b"] .text false sources :=
    ⟨by decide +kernel, List.forall_mem_cons.mpr ⟨rfl, List.forall_mem_singleton.mpr rfl⟩⟩
  have hasks' : Asks files' ["tokenize", "--format", "text", "a", "c"] .text false sources' :=
    ⟨by decide +kernel, List.forall_mem_cons.mpr ⟨rfl, List.forall_mem_singleton.mpr rfl⟩⟩
  obtain ⟨htokens, hdiagnostics⟩ := listing_decodable hasks hasks'
  exact ⟨hasks, hasks', (htokens (by decide +kernel)).2,
    hdiagnostics rfl rfl (by decide +kernel)⟩

end LoxLexer
