import LoxLexer.Json.Lexed
import LoxLexer.Lex
import LoxLexer.Proofs.JsonText

/-!
# Nothing but spans is lost in JSON

What lexing a source gives can be read back from its JSON text (`json_keeps_lexed`): the kinds,
lexemes, literals and lines of all tokens, and the lines, codes and messages of all diagnostics. A
number is read back to the last bit, since its digits round to it and to nothing else; only one that
is not finite becomes `null`. So the text is the same for two results exactly if they differ in
spans only.
-/

set_option autoImplicit false

namespace LoxLexer

/-! ## Reading values -/

namespace Json.Value

def text? : Value → Option String
  | string s => some s
  | _ => none

def natural? : Value → Option Nat
  | number false q => if q.den = 1 then some q.num.toNat else none
  | _ => none

/-- A natural number that fits in 32 bits. -/
def word? (v : Value) : Option UInt32 := do
  let n ← v.natural?
  if n < 2 ^ 32 then some (UInt32.ofNat n) else none

end Json.Value

open Json (Value)

def Kind.ofValue? (v : Value) : Option Kind := v.text?.bind Kind.ofName?

/-- A literal is read off the type of its value, a number as the nearest binary64 with ties to even
(`Binary64.ofRat_eq_iff`). -/
def Literal.ofValue? : Value → Option Literal
  | .null => some .absent
  | .number negative q => some (.number { Binary64.ofRat q with negative := negative })
  | .string s => some (.string s)
  | _ => none

/-- The token of an object with the members of a token, with an empty span. -/
def Token.ofValue? : Value → Option Token
  | .object [("kind", kind), ("lexeme", lexeme), ("literal", literal), ("line", line)] => do
      some ⟨← Kind.ofValue? kind, ← lexeme.text?, ← Literal.ofValue? literal, ← line.word?, default⟩
  | _ => none

/-- The diagnostic of an object with the members of a diagnostic, with an empty span. -/
def Diagnostic.ofValue? : Value → Option Diagnostic
  | .object [("line", line), ("code", code), ("message", message)] => do
      some ⟨← line.word?, default, ← code.word?, ← message.text?⟩
  | _ => none

/-- What an object with exactly the members `tokens` and `diagnostics` holds. -/
def Lexed.ofValue? : Value → Option Lexed
  | .object [("tokens", .array tokens), ("diagnostics", .array diagnostics)] => do
      some ⟨← tokens.mapM Token.ofValue?, ← diagnostics.mapM Diagnostic.ofValue?⟩
  | _ => none

/-! ## What is kept -/

/-- Whether the literal is no infinity and no NaN. -/
def Literal.isFinite : Literal → Bool
  | number x => x.isFinite
  | absent | string _ => true

/-- The literal that is read back. -/
def Literal.kept (literal : Literal) : Literal := if literal.isFinite then literal else .absent

def Token.withoutSpan (t : Token) : Token := { t with span := default }

def Diagnostic.withoutSpan (d : Diagnostic) : Diagnostic := { d with span := default }

/-- **The same tokens and diagnostics**, spans left out. -/
def Lexed.withoutSpans (lexed : Lexed) : Lexed :=
  ⟨lexed.tokens.map Token.withoutSpan, lexed.diagnostics.map Diagnostic.withoutSpan⟩

/-- What is read back: all but spans and numbers that are not finite. -/
def Lexed.kept (lexed : Lexed) : Lexed :=
  ⟨lexed.tokens.map fun t => { t.withoutSpan with literal := t.literal.kept },
    lexed.diagnostics.map Diagnostic.withoutSpan⟩

/-- Whether all number literals are finite. -/
def Lexed.allFinite (lexed : Lexed) : Bool := lexed.tokens.all fun t => t.literal.isFinite

/-- **The JSON text of what lexing a source gives** is a document without control characters, and
all but the spans is read back from it, however it is read. -/
structure Lexed.KeptInJson (lexed : Lexed) : Prop where
  document : ∃ v, Json.IsDocument lexed.json.text.toList v
  plain : ∀ c ∈ lexed.json.text.toList, 0x20 ≤ c.toNat
  read : ∀ v, Json.IsDocument lexed.json.text.toList v → Lexed.ofValue? v = some lexed.kept

/-! ## Reading back -/

theorem word?_natural (n : UInt32) : (Value.number false n.toNat).word? = some n := by
  have hlt : n.toNat < 2 ^ 32 := n.toNat_lt
  have hnatural : (Value.number false n.toNat).natural? = some n.toNat := by
    rw [Value.natural?, Rat.den_natCast, if_pos rfl, Rat.num_natCast, Int.toNat_natCast]
  rw [Value.word?, hnatural]
  show (if n.toNat < 2 ^ 32 then some (UInt32.ofNat n.toNat) else none) = some n
  rw [if_pos hlt, UInt32.ofNat_toNat]

theorem Literal.ofValue?_json (literal : Literal) :
    Literal.ofValue? literal.json.value = some literal.kept := by
  cases literal with
  | absent => simp [Literal.json, Json.value, Literal.ofValue?, Literal.kept]
  | string s => simp [Literal.json, Json.value, Literal.ofValue?, Literal.kept, Literal.isFinite]
  | number x =>
      rw [Literal.json, Json.value, Literal.kept, Literal.isFinite]
      split
      · rename_i hfinite
        rw [Literal.ofValue?, Binary64.ofRat_printed hfinite]
      · rfl

theorem Token.ofValue?_json (t : Token) :
    Token.ofValue? t.json.value = some { t.withoutSpan with literal := t.literal.kept } := by
  have hkind : Kind.ofValue? (.string t.kind.name) = some t.kind := Kind.ofName_name t.kind
  have hvalue : t.json.value = .object [("kind", .string t.kind.name), ("lexeme", .string t.lexeme),
      ("literal", t.literal.json.value), ("line", .number false t.line.toNat)] := by
    simp [Token.json, Kind.json, Json.value, Json.memberValues]
  rw [hvalue, Token.ofValue?, hkind, Literal.ofValue?_json, word?_natural]
  rfl

theorem Diagnostic.ofValue?_json (d : Diagnostic) :
    Diagnostic.ofValue? d.json.value = some d.withoutSpan := by
  have hvalue : d.json.value = .object [("line", .number false d.line.toNat),
      ("code", .number false d.code.toNat), ("message", .string d.message)] := by
    simp [Diagnostic.json, Json.value, Json.memberValues]
  rw [hvalue, Diagnostic.ofValue?, word?_natural, word?_natural]
  rfl

/-- What is read back item by item is read back as a list. -/
theorem mapM_value_json {α : Type} {toJson : α → Json} {ofValue? : Value → Option α} {keep : α → α}
    (hread : ∀ a, ofValue? (toJson a).value = some (keep a)) (items : List α) :
    (Json.values (items.map toJson)).mapM ofValue? = some (items.map keep) := by
  induction items with
  | nil => rfl
  | cons a items ih =>
      rw [List.map_cons, Json.values, List.mapM_cons, hread, ih]
      rfl

/-- **The value of a result is read back** as all that is kept of it. -/
theorem Lexed.ofValue?_json (lexed : Lexed) :
    Lexed.ofValue? lexed.json.value = some lexed.kept := by
  have hvalue : lexed.json.value =
      .object [("tokens", .array (Json.values (lexed.tokens.map Token.json))),
        ("diagnostics", .array (Json.values (lexed.diagnostics.map Diagnostic.json)))] := by
    simp [Lexed.json, Diagnostic.jsonList, Json.value, Json.memberValues]
  rw [hvalue, Lexed.ofValue?, mapM_value_json Token.ofValue?_json,
    mapM_value_json Diagnostic.ofValue?_json]
  rfl

theorem Lexed.keptInJson (lexed : Lexed) : lexed.KeptInJson where
  document := ⟨_, Json.isDocument_text lexed.json⟩
  plain := (Json.written_text lexed.json).plain
  read v hv := by
    rw [hv.unique (Json.isDocument_text lexed.json)]
    exact lexed.ofValue?_json

/-! ## Spans make no difference -/

theorem Lexed.kept_of_allFinite {lexed : Lexed} (h : lexed.allFinite = true) :
    lexed.kept = lexed.withoutSpans := by
  have htokens : (lexed.tokens.map fun t => { t.withoutSpan with literal := t.literal.kept }) =
      lexed.tokens.map Token.withoutSpan := by
    refine List.map_congr_left fun t ht => ?_
    have hfinite := List.all_eq_true.mp h t ht
    rw [Literal.kept, if_pos hfinite]
    rfl
  rw [Lexed.kept, htokens, Lexed.withoutSpans]

theorem Lexed.json_withoutSpans (lexed : Lexed) : lexed.withoutSpans.json = lexed.json := by
  rw [Lexed.json, Lexed.json, Lexed.withoutSpans, Diagnostic.jsonList, Diagnostic.jsonList,
    List.map_map, List.map_map]
  rfl

/-- **JSON keeps all but the spans** of what lexing a source gives, and of finite numbers every
bit. -/
theorem json_keeps_lexed (lexed other : Lexed) :
    lexed.KeptInJson ∧
      (lexed.allFinite = true → other.allFinite = true →
        (lexed.json.text = other.json.text ↔ lexed.withoutSpans = other.withoutSpans)) := by
  refine ⟨lexed.keptInJson, fun hlexed hother => ⟨fun htext => ?_, fun hsame => ?_⟩⟩
  · have hread := lexed.keptInJson.read _ (htext ▸ Json.isDocument_text other.json)
    have hkept : other.kept = lexed.kept := Option.some.inj (other.ofValue?_json.symm.trans hread)
    rw [← Lexed.kept_of_allFinite hlexed, ← Lexed.kept_of_allFinite hother, hkept]
  · rw [← lexed.json_withoutSpans, hsame, other.json_withoutSpans]

/-- A blank in front moves the spans, and nothing else. -/
theorem json_behind_blank :
    (lex "0.1").allFinite = true ∧ (lex " 0.1").allFinite = true ∧ (lex "0.1").KeptInJson ∧
      (lex "0.1").json.text = (lex " 0.1").json.text := by
  have hfinite : (lex "0.1").allFinite = true := by decide +kernel
  have hfinite' : (lex " 0.1").allFinite = true := by decide +kernel
  obtain ⟨hkept, hsame⟩ := json_keeps_lexed (lex "0.1") (lex " 0.1")
  exact ⟨hfinite, hfinite', hkept, (hsame hfinite hfinite').mpr (by decide +kernel)⟩

end LoxLexer
