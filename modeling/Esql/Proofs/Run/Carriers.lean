import Esql.Proofs.Document.JsonText
import Esql.Proofs.Document.KeyPaths
import Esql.Proofs.Document.RuleFields
import Esql.Proofs.Document.TomlText
import Esql.Proofs.Run.Files

/-!
# `Proofs.Run.Carriers` — the same query in every format

A query can be given by itself, inside a JSON or TOML document under any row of keys, or in a detection rule.
`Carries` says which texts carry a query in which format; `run_carried` says that the query is found in all of
them, so that a run on such a text ends as the check of the query says, whatever the format is.

## Contents
- `Carries`, the texts that carry a query.
- `Session.conclude`, the end of a run on a literal with a given verdict.
- The query in each format, and what a run on a text that carries it does.
-/

namespace Esql

open Esql.Document
open Esql.Report (Outcome Style Verdict statusLine)
open Esql.Syntax (check)

/-- `Carries query format text`: in this format, the text carries the query. Keys of a document may be any that can
    be quoted in a path; there are fewer than 80 of them, and in TOML none behind the first is the one that makes a
    table stand for a date or time. -/
inductive Carries (query : String) : Format → String → Prop where
  | raw : Carries query .raw query
  | json {path : List QuotedKey} : path ≠ [] → path.length < 80 →
      Carries query (.json (dotted path))
        (String.ofList (Json.nestedText (path.map QuotedKey.key) (Json.quoted query)))
  | toml {path : List QuotedKey} : path ≠ [] → path.length < 80 →
      Toml.dateTimeKey ∉ (path.map QuotedKey.key).tail →
      Carries query (.toml (dotted path))
        (String.ofList (Toml.assignmentText (Toml.dottedText (path.map QuotedKey.key)) query))
  | rule : Carries query .detectionRule (String.ofList (Toml.ruleText Extraction.ruleType query))

/-! ## Runs on a literal -/

/-- The end of a run on a literal with this verdict: its status line is written, and the verdict is recorded, or the
    run fails for the reason for which the line is not written. -/
def Session.conclude (session : Session) (style : Style) (verdict : Verdict) :
    Except Failure Outcome × Session :=
  let line := statusLine style literalLabel verdict
  match session.write line.channel line.text with
  | (.ok (), session) => (.ok (({} : Outcome).record literalLabel verdict), session)
  | (.error reason, session) => (.error (.unexpected reason), session)

/-- A run on a literal ends as the verdict on it says, and asks for no file. -/
theorem run_literal [Diagnostics] {config : Config} {text : String} {verdict : Verdict}
    (hliteral : config.literal = some text) (hpatterns : config.patterns = [])
    (hverdict : config.judge literalLabel text.toUTF8 = .ok verdict) (session : Session) (files : FileSource) :
    session.run files config = session.conclude config.style verdict := by
  have hsource : config.source = .ok (.literal text) := by rw [Config.source, hliteral, hpatterns]
  have hrun : session.run files config =
      ((Session.host files).process config {} literalLabel text.toUTF8).run.run session := by
    rw [Session.run, run, hsource]
    rfl
  rw [hrun, Host.process, run_bind, run_lift, hverdict]
  dsimp only
  rw [run_bind, report_write, Session.conclude]
  dsimp only
  rcases session.write _ _ with ⟨reason | _, after⟩ <;> rfl

/-! ## The query in each format -/

section
variable {path : List QuotedKey} (query : String)

theorem fromJson_nested [Diagnostics] (hne : path ≠ []) (hlength : path.length < 80) :
    Extraction.fromJson
        (String.ofList (Json.nestedText (path.map QuotedKey.key) (Json.quoted query))) (dotted path) =
      .ok (.extracted query) := by
  obtain ⟨first, rest, rfl⟩ := List.exists_cons_of_ne_nil hne
  have hlevels : ((first :: rest).map QuotedKey.key).length ≤ Json.maxLevels := by
    rw [List.length_map, Json.maxLevels]
    omega
  have habsent :
      Json.get? (Json.nested ((first :: rest).map QuotedKey.key) (.string query)) (dotted (first :: rest)) = none := by
    simp [Json.nested, Json.get?, (dotted_ne_key first rest).symm]
  rw [Extraction.fromJson, Json.read?_nestedText hlevels]
  simp only [lookup_dotted hne habsent, Json.foldlM_get?_nested]
  rfl

theorem fromToml_assignment [Diagnostics] (hne : path ≠ []) (hlength : path.length < 80)
    (hdate : Toml.dateTimeKey ∉ (path.map QuotedKey.key).tail) :
    Extraction.fromToml
        (String.ofList (Toml.assignmentText (Toml.dottedText (path.map QuotedKey.key)) query)) (dotted path) =
      .ok (.extracted query) := by
  obtain ⟨first, rest, rfl⟩ := List.exists_cons_of_ne_nil hne
  have hlevels : ((first :: rest).map QuotedKey.key).length ≤ Toml.maxLevels := by
    rw [List.length_map, Toml.maxLevels]
    omega
  have habsent :
      Toml.get? (Toml.nested ((first :: rest).map QuotedKey.key) (.string query)) (dotted (first :: rest)) = none := by
    simp [Toml.nested, Toml.get?, (dotted_ne_key first rest).symm]
  rw [Extraction.fromToml_of_read (Toml.read?_nested (by simp) hlevels hdate query), lookup_dotted hne habsent,
    Toml.foldlM_get?_nested]
  rfl

theorem fromRule_rule [Diagnostics] :
    Extraction.fromRule (String.ofList (Toml.ruleText Extraction.ruleType query)) = .ok (.extracted query) := by
  rw [Extraction.fromRule_of_ruleType (Toml.read?_rule _ query) (Toml.lookup_rule_type _ query), Toml.lookup_rule_query]
  rfl

end

/-- The query is found in every text that carries it. -/
theorem Carries.extract [Diagnostics] {query text : String} {format : Format} (h : Carries query format text) :
    format.extract text.toUTF8 = .ok (.extracted query) := by
  rw [Format.extract, fromUTF8?_toUTF8]
  cases h with
  | raw => rfl
  | json hne hlength => exact fromJson_nested query hne hlength
  | toml hne hlength hdate => exact fromToml_assignment query hne hlength hdate
  | rule => exact fromRule_rule query

/-- **The query is what counts.** In a text that carries a query the query is found, whatever the format is, and a
    run on the text ends as the check of the query says: it is the run on the query itself. -/
theorem run_carried [Diagnostics] {query text : String} {config : Config} (hcarries : Carries query config.format text)
    (hliteral : config.literal = some text) (hpatterns : config.patterns = []) (session : Session)
    (files : FileSource) :
    config.format.extract text.toUTF8 = .ok (.extracted query) ∧
      session.run files config = session.conclude config.style (.ofCheck (check query)) ∧
      session.run files config = session.run files { config with literal := some query, format := .raw } := by
  -- A query by itself is found like any other, so one equation serves both runs.
  have hrun {config : Config} {text : String} (hcarries : Carries query config.format text)
      (hliteral : config.literal = some text) (hpatterns : config.patterns = []) :
      session.run files config = session.conclude config.style (.ofCheck (check query)) := by
    refine run_literal hliteral hpatterns ?_ session files
    rw [Config.judge, hcarries.extract]
    rfl
  have hraw : session.run files { config with literal := some query, format := .raw } =
      session.conclude config.style (.ofCheck (check query)) := hrun .raw rfl hpatterns
  exact ⟨hcarries.extract, hrun hcarries hliteral hpatterns, (hrun hcarries hliteral hpatterns).trans hraw.symm⟩

/-- Keys with a dot, a quote and no character at all lead to a query with a quote, an escape and a line feed. -/
theorem run_carried_quotedKeys :
    let path : List QuotedKey :=
      [⟨'"', "a.b", rfl, by decide⟩, ⟨'"', "", rfl, by decide⟩, ⟨'\x27', " \"c\" ", rfl, by decide⟩]
    let query := "FROM a\n| WHERE b == \"\\t\x7f\""
    let text := String.ofList (Toml.assignmentText (Toml.dottedText (path.map QuotedKey.key)) query)
    let config : Config := { literal := some text, format := .toml (dotted path) }
    let session : Session := { stdin := ⟨[], none⟩ }
    let files : FileSource := ⟨fun _ => .ok [], fun path => .error (.io path "gone")⟩
    (Carries query config.format text ∧ config.literal = some text ∧ config.patterns = []) ∧
      config.format.extract text.toUTF8 = .ok (.extracted query) ∧
      session.run files config = session.conclude .text (.ofCheck (check query)) ∧
      session.run files config = session.run files { literal := some query } := by
  intro path query text config session files
  have hcarries : Carries query config.format text := .toml (by decide) (by decide) (by decide)
  exact ⟨⟨hcarries, rfl, rfl⟩, run_carried hcarries rfl rfl session files⟩

/-- A key behind the first that makes a table stand for a date or time is a key in JSON and none in TOML, where
    the document is refused. -/
theorem date_key_uncarried :
    let path : List QuotedKey := [⟨'"', "a", rfl, by decide⟩, ⟨'"', Toml.dateTimeKey, rfl, by decide⟩]
    let keys := path.map QuotedKey.key
    (path ≠ [] ∧ path.length < 80) ∧
      (Format.json (dotted path)).extract (String.ofList (Json.nestedText keys (Json.quoted "FROM a"))).toUTF8 =
        .ok (.extracted "FROM a") ∧
      ∃ diagnostic, (Format.toml (dotted path)).extract
          (String.ofList (Toml.assignmentText (Toml.dottedText keys) "FROM a")).toUTF8 =
        .error (.malformed ⟨.toml, diagnostic⟩) := by
  intro path keys
  refine ⟨by decide, (Carries.json (by decide) (by decide)).extract, ?_⟩
  have hnone : Toml.read? (String.ofList (Toml.assignmentText (Toml.dottedText keys) "FROM a")) = none := by
    rw [Toml.read?_assignmentText (by decide) (by decide)]
    rfl
  rw [Format.extract, fromUTF8?_toUTF8]
  exact ⟨_, Extraction.fromToml_of_none hnone _⟩

end Esql
