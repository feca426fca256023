import Esql.Extraction
import Esql.Proofs.Number.Digits

/-!
# `Proofs.Document.RuleFields` — detection rules and the fields of their documents

A detection rule is judged by two values of its document, and both can also be extracted as fields of a TOML document,
as texts. What is made of the rule is known from these two extractions (`rule_agrees_with_fields`), although one
compares a value and the other gives only its text: the type of rules with a query is a word that no value but the
string itself is written as (`answer_eq_ruleType_iff`). All other values begin with a digit, a sign or a bracket or
are one of a few words, or they have a point inside.

A rule that is skipped is one that was read: neither bytes that are no text nor a text that is no document are passed
over in that way (`Judges`), and what the library says of such a text is said of the rule as it is of the fields.

## Contents
- The texts of values that are no strings.
- Rules and fields: `Agrees`, what a rule comes to by its fields; `Judges`, what it comes to by its bytes.
-/

namespace Esql.Document.Toml

open Esql.Number

/-! ## Texts of values -/

theorem signedDecimal_ne {n : Int} {c : Char} {cs : List Char} (hdigit : c.isDigit = false) (hsign : c ≠ '-') :
    signedDecimal n ≠ c :: cs := by
  cases n with
  | ofNat n =>
      intro heq
      have hmem : c ∈ decimal n := by
        show c ∈ signedDecimal (.ofNat n)
        rw [heq]
        exact .head _
      rw [isDigit_decimal hmem] at hdigit
      cases hdigit
  | negSucc n =>
      intro heq
      exact hsign (List.cons.inj heq).1.symm

/-- A number that is written without exponent has a point. -/
theorem point_mem_plain (d : Decimal) : '.' ∈ Layout.plain d := by
  unfold Layout.plain
  by_cases h : d.exponent ≥ 0
  · simp [h]
  · simp [h]

/-- A double has a point, or is written as a word. -/
theorem floatText_cases (x : Double) :
    '.' ∈ floatText x ∨ floatText x ∈ ["inf".toList, "-inf".toList, "nan".toList] := by
  cases x with
  | finite negative size =>
      left
      show '.' ∈ layout.text negative size
      unfold Layout.text
      by_cases hzero : size.significand = 0
      · simp [hzero]
      · have hplain : layout.isPlain = fun _ => true := rfl
        simp [hzero, hplain, point_mem_plain]
  | infinite negative => cases negative <;> simp [floatText]
  | notANumber => simp [floatText]

/-- **Only the string is written as the type of rules with a query.** -/
theorem answer_eq_ruleType_iff (value : Toml) :
    value.answer = Extraction.ruleType ↔ value = string Extraction.ruleType := by
  refine ⟨fun h => ?_, fun h => h ▸ rfl⟩
  have hword : Extraction.ruleType.toList = ['e', 's', 'q', 'l'] := rfl
  have htext : ∀ cs, String.ofList cs = Extraction.ruleType → cs = ['e', 's', 'q', 'l'] := by
    intro cs hcs
    rw [← hword, ← hcs, String.toList_ofList]
  cases value with
  | string s => exact congrArg string h
  | integer n => exact absurd (htext _ h) (signedDecimal_ne rfl (by decide))
  | float x =>
      have hfloat : floatText x = ['e', 's', 'q', 'l'] := htext _ h
      obtain hpoint | hwords := floatText_cases x
      · rw [hfloat] at hpoint
        exact absurd hpoint (by decide)
      · rw [hfloat] at hwords
        exact absurd hwords (by decide)
  | boolean b => cases b <;> exact absurd (htext _ h) (by decide)
  | dateTime d => cases htext _ h
  | array items => cases htext _ h
  | table entries =>
      cases entries with
      | nil => cases htext _ h
      | cons entry entries => cases htext _ h

end Esql.Document.Toml

namespace Esql

open Esql.Document

/-! ## Rules and fields -/

theorem fromUTF8?_toUTF8 (s : String) : String.fromUTF8? s.toUTF8 = some s := by
  rw [String.fromUTF8?, String.toUTF8_eq_toByteArray, dif_pos s.isValidUTF8]
  rfl

namespace Extraction

/-- An extraction in which a query that is not found is missing from a detection rule. -/
def asQuery : Except ExtractionError Extraction → Except ExtractionError Extraction
  | .error (.fieldNotFound ..) => .error .missingQuery
  | result => result

/-- What is extracted from a value that may be found under a field. -/
def asField (field : String) : Option Toml → Except ExtractionError Extraction
  | none => .error (.fieldNotFound field .toml)
  | some value => .ok (extracted value.answer)

variable [Diagnostics] {content : String} {document : Toml}

theorem fromToml_of_read (hread : Toml.read? content = some document) (field : String) :
    fromToml content field = asField field (lookup Toml.get? document field) := by
  unfold fromToml
  rw [readToml_of_read hread]
  show (match lookup Toml.get? document field with
    | none => _
    | some value => _) = _
  cases lookup Toml.get? document field <;> rfl

/-- A rule whose type is found to be another one is skipped. -/
theorem fromRule_of_other (hread : Toml.read? content = some document)
    (htype : lookup Toml.get? document "rule.type" ≠ some (.string ruleType)) : fromRule content = .ok skip := by
  unfold fromRule
  rw [readToml_of_read hread]
  simp only [bind, Except.bind]
  split
  case h_1 type htext =>
    rw [if_neg]
    rintro rfl
    exact htype htext
  case h_2 => rfl

theorem fromRule_of_ruleType (hread : Toml.read? content = some document)
    (htype : lookup Toml.get? document "rule.type" = some (.string ruleType)) :
    fromRule content = asQuery (asField "rule.query" (lookup Toml.get? document "rule.query")) := by
  unfold fromRule
  rw [readToml_of_read hread]
  simp only [bind, Except.bind]
  rw [htype]
  dsimp only
  rw [if_pos rfl]
  cases lookup Toml.get? document "rule.query" <;> rfl

theorem fromToml_of_none (hread : Toml.read? content = none) (field : String) :
    fromToml content field = .error (.malformed ⟨.toml, Diagnostics.toml content⟩) := by
  rw [fromToml, readToml_of_none hread]
  rfl

theorem fromRule_of_none (hread : Toml.read? content = none) :
    fromRule content = .error (.malformed ⟨.detectionRule, Diagnostics.toml content⟩) := by
  rw [fromRule, readToml_of_none hread]
  rfl

/-- What is made of a rule, given what is extracted from its document as its type and as its query. -/
structure Agrees (type query rule : Except ExtractionError Extraction) : Prop where
  badEncoding : rule = .error .invalidEncoding ↔ type = .error .invalidEncoding
  malformed (diagnostic : String) :
    rule = .error (.malformed ⟨.detectionRule, diagnostic⟩) ↔ type = .error (.malformed ⟨.toml, diagnostic⟩)
  ruleKind (what : Malformation) : rule = .error (.malformed what) → what.kind = .detectionRule
  typeKind (what : Malformation) : type = .error (.malformed what) → what.kind = .toml
  skipped : rule = .ok skip ↔
    type = .error (.fieldNotFound "rule.type" .toml) ∨ ∃ text, type = .ok (extracted text) ∧ text ≠ ruleType
  taken : type = .ok (extracted ruleType) → rule = asQuery query

/-- What is made of a rule, given the bytes of its document. Only a document that is read is skipped. -/
structure Judges (bytes : ByteArray) (rule : Except ExtractionError Extraction) : Prop where
  badEncoding : rule = .error .invalidEncoding ↔ String.fromUTF8? bytes = none
  malformed (what : Malformation) : rule = .error (.malformed what) ↔
    ∃ content, String.fromUTF8? bytes = some content ∧ Toml.read? content = none ∧
      what = ⟨.detectionRule, Diagnostics.toml content⟩
  skipped : rule = .ok skip ↔
    ∃ content document, String.fromUTF8? bytes = some content ∧ Toml.read? content = some document ∧
      lookup Toml.get? document "rule.type" ≠ some (.string ruleType)
  taken {content : String} {document : Toml} : String.fromUTF8? bytes = some content →
    Toml.read? content = some document → lookup Toml.get? document "rule.type" = some (.string ruleType) →
      rule = asQuery (asField "rule.query" (lookup Toml.get? document "rule.query"))

/-- A document that is read: the type is not found, or it is another one, or it is the one of rules with a query. -/
theorem agrees_of_read (hread : Toml.read? content = some document) :
    Agrees (fromToml content "rule.type") (fromToml content "rule.query") (fromRule content) := by
  have htype := fromToml_of_read hread "rule.type"
  by_cases hrule : lookup Toml.get? document "rule.type" = some (.string ruleType)
  · have hresult := fromRule_of_ruleType hread hrule
    have hquery := fromToml_of_read hread "rule.query"
    rw [hrule] at htype
    rw [hresult, htype, hquery]
    cases lookup Toml.get? document "rule.query" <;>
      constructor <;> simp [asField, asQuery, Toml.answer]
  · have hresult := fromRule_of_other hread hrule
    rw [hresult, htype]
    cases hfound : lookup Toml.get? document "rule.type" with
    | none => constructor <;> simp [asField]
    | some value =>
        have hother : value.answer ≠ ruleType := by
          intro htext
          apply hrule
          rw [hfound, (Toml.answer_eq_ruleType_iff value).mp htext]
        constructor <;> simp [asField, hother]

/-- A text that is no document is refused in the same words as a rule and for each of its fields. -/
theorem agrees_of_none (hread : Toml.read? content = none) :
    Agrees (fromToml content "rule.type") (fromToml content "rule.query") (fromRule content) := by
  rw [fromToml_of_none hread, fromToml_of_none hread, fromRule_of_none hread]
  constructor
  case ruleKind | typeKind =>
    rintro what ⟨⟩
    rfl
  all_goals simp

theorem judges_of_read {bytes : ByteArray} (htext : String.fromUTF8? bytes = some content)
    (hread : Toml.read? content = some document) : Judges bytes (fromRule content) := by
  have htaken := fromRule_of_ruleType hread
  have hskipped := fromRule_of_other hread
  constructor
  case taken =>
    intro content' document' htext' hread' htype
    obtain rfl : content' = content := Option.some.inj (htext'.symm.trans htext)
    obtain rfl : document' = document := Option.some.inj (hread'.symm.trans hread)
    exact htaken htype
  all_goals
    by_cases htype : lookup Toml.get? document "rule.type" = some (.string ruleType)
    · rw [htaken htype]
      cases lookup Toml.get? document "rule.query" <;> simp [asField, asQuery, htext, hread, htype]
    · rw [hskipped htype]
      simp [htext, hread, htype]

theorem judges_of_none {bytes : ByteArray} (htext : String.fromUTF8? bytes = some content)
    (hread : Toml.read? content = none) : Judges bytes (fromRule content) := by
  rw [fromRule_of_none hread]
  constructor
  case taken =>
    intro content' document htext' hread'
    obtain rfl : content' = content := Option.some.inj (htext'.symm.trans htext)
    rw [hread] at hread'
    cases hread'
  all_goals simp [htext, hread, eq_comm]

/-- Bytes that are no text are refused as such, whatever they should be. -/
theorem extract_of_noText {bytes : ByteArray} (htext : String.fromUTF8? bytes = none) (format : Format) :
    format.extract bytes = .error .invalidEncoding := by
  rw [Format.extract, htext]

end Extraction

open Extraction

/-- **Detection rules agree with the fields of their documents.** Let the type and the query of a rule be extracted as
    fields of a TOML document. The rule is refused for its encoding or its form exactly if the type is, and for its
    form in the same words; it is skipped exactly if no type is found or the text of the type is another one; and if
    this text is that of rules with a query, the rule gives what the query gives, but for the error where none is
    found. Bytes that are no text and texts that are no documents are never skipped. No value other than the string
    has the text of the type of rules with a query. -/
theorem rule_agrees_with_fields [Diagnostics] (bytes : ByteArray) :
    Agrees ((Format.toml "rule.type").extract bytes) ((Format.toml "rule.query").extract bytes)
        (Format.detectionRule.extract bytes) ∧
      Judges bytes (Format.detectionRule.extract bytes) ∧
      ∀ value : Toml, value.answer = ruleType ↔ value = .string ruleType := by
  rw [← and_assoc]
  refine ⟨?_, Toml.answer_eq_ruleType_iff⟩
  cases htext : String.fromUTF8? bytes with
  | none =>
      rw [extract_of_noText htext, extract_of_noText htext, extract_of_noText htext]
      constructor
      · constructor <;> simp
      · constructor <;> simp [htext]
  | some content =>
      have hfield : ∀ field, (Format.toml field).extract bytes = fromToml content field := by
        intro field
        rw [Format.extract, htext]
      have hrule : Format.detectionRule.extract bytes = fromRule content := by rw [Format.extract, htext]
      rw [hfield, hfield, hrule]
      cases hread : Toml.read? content with
      | some document => exact ⟨agrees_of_read hread, judges_of_read htext hread⟩
      | none => exact ⟨agrees_of_none hread, judges_of_none htext hread⟩

/-- Bytes that are no text, and a text that ends where a value should stand: neither is skipped. -/
example [Diagnostics] : Format.detectionRule.extract ⟨#[0x46, 0x52, 0xff, 0x4f]⟩ = .error .invalidEncoding := rfl

example [Diagnostics] : Format.detectionRule.extract "[rule]\ntype =".toUTF8 =
    .error (.malformed ⟨.detectionRule, Diagnostics.toml "[rule]\ntype ="⟩) := by
  have hread : Toml.read? "[rule]\ntype =" = none := by decide +kernel
  rw [Format.extract, fromUTF8?_toUTF8]
  exact fromRule_of_none hread

end Esql
