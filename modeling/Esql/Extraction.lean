import Esql.Document.KeyPath
import Esql.Document.Json.Reader
import Esql.Document.Toml.Reader
import Esql.Document.Toml.Writer

/-!
# `Extraction` — finding the query in an input

An input is a query itself, a JSON or TOML document with the query under a key, or a detection rule: a TOML
document that carries a query only if it says that it is a rule of this language. `Format.extract` takes
the bytes of an input to its query, or to the fact that it has none to be checked.

A document that is refused is named with what the library that reads such documents says of it. Which texts the
libraries refuse is known, and how they word it is not: their words are a parameter, `Diagnostics`.

## Contents
- `Format`, `Extraction`, `Diagnostics`, and `ExtractionError` with its wording;
- `fromJson`, `fromToml`, `fromRule`;
- `Format.extract`.
-/

namespace Esql

open Esql.Document

/-- How the query is found in an input. -/
inductive Format where
  /-- The whole input is the query. -/
  | raw
  /-- The query is a value of a JSON document. -/
  | json (field : String)
  /-- The query is a value of a TOML document. -/
  | toml (field : String)
  /-- The query belongs to a detection rule. -/
  | detectionRule
deriving DecidableEq, Repr

/-- What an input holds. -/
inductive Extraction where
  /-- Nothing to be checked. -/
  | skip
  | extracted (query : String)
deriving DecidableEq, Repr

/-- What kind of document an input was read as. -/
inductive DocumentKind where
  | json
  | toml
  | detectionRule
deriving DecidableEq, Repr

/-- The name of a kind of document in diagnostics. -/
def DocumentKind.name : DocumentKind → String
  | json => "JSON"
  | toml => "TOML"
  | detectionRule => "detection rule"

/-- What the libraries that read documents say of a text that they refuse. -/
class Diagnostics where
  json : String → String
  toml : String → String

/-- The words of the libraries left out, for the program that runs and for texts of which nothing is said. -/
instance (priority := low) Diagnostics.withheld : Diagnostics where
  json _ := ""
  toml _ := ""

/-- Why a document is refused. -/
structure Malformation where
  /-- What kind of document it should be. -/
  kind : DocumentKind
  /-- What the library says of it. -/
  diagnostic : String
deriving DecidableEq, Repr

/-- Why no query is found in an input. -/
inductive ExtractionError where
  | fieldNotFound (field : String) (kind : DocumentKind)
  | nullField (field : String) (kind : DocumentKind)
  | notScalar (field : String)
  | malformed (what : Malformation)
  /-- A detection rule of this language has no query. -/
  | missingQuery
  | invalidEncoding
deriving DecidableEq, Repr

/-- The wording of an error. -/
def ExtractionError.message : ExtractionError → String
  | fieldNotFound field kind => "field '" ++ field ++ "' not found in " ++ kind.name ++ " input"
  | nullField field kind => "field '" ++ field ++ "' is null in " ++ kind.name ++ " input"
  | notScalar field => "field '" ++ field ++ "' is not a scalar value"
  | malformed what => what.kind.name ++ " input has errors: " ++ what.diagnostic
  | missingQuery => "field \"rule.query\" not found in detection rule"
  | invalidEncoding => "input is not valid UTF-8"

namespace Extraction

/-! ## JSON -/

/-- The text of a value that holds a query. -/
def scalarText (field : String) : Json → Except ExtractionError String
  | .string s => .ok s
  | .number n => .ok (String.ofList n.text)
  | .boolean b => .ok (if b then "true" else "false")
  | .null => .error (.nullField field .json)
  | .array _ | .object _ => .error (.notScalar field)

/-- The query under a field of a JSON document. -/
def fromJson [Diagnostics] (content field : String) : Except ExtractionError Extraction :=
  match Json.read? content with
  | none => .error (.malformed ⟨.json, Diagnostics.json content⟩)
  | some document =>
    match lookup Json.get? document field with
    | none => .error (.fieldNotFound field .json)
    | some value => (scalarText field value).map extracted

/-! ## TOML -/

/-- The table of a TOML document, which is refused as a document of the given kind. -/
def readToml [Diagnostics] (content : String) (kind : DocumentKind) : Except ExtractionError Toml :=
  match Toml.read? content with
  | none => .error (.malformed ⟨kind, Diagnostics.toml content⟩)
  | some document => .ok document

/-- A document that is read is taken whatever kind of document it should be. -/
theorem readToml_of_read [Diagnostics] {content : String} {document : Toml} (hread : Toml.read? content = some document)
    (kind : DocumentKind) : readToml content kind = .ok document := by
  rw [readToml, hread]

theorem readToml_of_none [Diagnostics] {content : String} (hread : Toml.read? content = none) (kind : DocumentKind) :
    readToml content kind = .error (.malformed ⟨kind, Diagnostics.toml content⟩) := by
  rw [readToml, hread]

/-- The query under a field of a TOML document. -/
def fromToml [Diagnostics] (content field : String) : Except ExtractionError Extraction := do
  let document ← readToml content .toml
  match lookup Toml.get? document field with
  | none => .error (.fieldNotFound field .toml)
  | some value => .ok (extracted value.answer)

/-! ## Detection rules -/

/-- The type of detection rules that carry a query of this language. -/
def ruleType : String := "esql"

/-- The query of a detection rule; rules of any other type have none to be checked. -/
def fromRule [Diagnostics] (content : String) : Except ExtractionError Extraction := do
  let rule ← readToml content .detectionRule
  match lookup Toml.get? rule "rule.type" with
  | some (.string type) =>
    if type = ruleType then
      match lookup Toml.get? rule "rule.query" with
      | none => .error .missingQuery
      | some query => .ok (extracted query.answer)
    else .ok skip
  | _ => .ok skip

end Extraction

/-- The query in the bytes of an input. -/
def Format.extract [Diagnostics] (format : Format) (bytes : ByteArray) : Except ExtractionError Extraction :=
  match String.fromUTF8? bytes with
  | none => .error .invalidEncoding
  | some content =>
    match format with
    | raw => .ok (.extracted content)
    | json field => Extraction.fromJson content field
    | toml field => Extraction.fromToml content field
    | detectionRule => Extraction.fromRule content

end Esql
