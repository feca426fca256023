import Esql.Extraction
import Esql.Proofs.Document.TomlText

/-!
# `Proofs.Document.RuleTable` — what a detection rule is judged by

The type and the query of a detection rule are looked up by their paths, `rule.type` and `rule.query`. A path that is
itself a key of the document comes first, so what is found is the value under that key, or else the value in the table
`rule` (`lookup_inRule`). Nothing else of a document is looked at (`fromRule_eq`): a rule is judged by its table, unless
one of the two paths is a key of the document.

## Contents
- `inRule?`, what is found for a key of the table.
- `judged`, the judgement of a rule, and what the table decides.
-/

namespace Esql.Extraction

open Esql.Document

variable {content content' : String} {document document' : Toml}

/-! ## What is found -/

/-- The value under a key of the table `rule`, unless its path is a key of the document. -/
def inRule? (document : Toml) (key : String) : Option Toml :=
  (document.get? ("rule." ++ key)).or ((document.get? "rule").bind (Toml.get? · key))

theorem lookup_inRule {key : String} (hpath : splitDotted ("rule." ++ key) = some ["rule", key]) :
    lookup Toml.get? document ("rule." ++ key) = inRule? document key := by
  rw [lookup, inRule?, hpath]
  cases document.get? ("rule." ++ key) with
  | some value => rfl
  | none =>
      show ["rule", key].foldlM Toml.get? document = _
      cases hrule : document.get? "rule" <;> simp [hrule]

/-- Where the path of a key is no key of the document, the table decides what is found. -/
theorem inRule?_of_absent {key : String} (h : document.get? ("rule." ++ key) = none) :
    inRule? document key = (document.get? "rule").bind (Toml.get? · key) := by
  rw [inRule?, h, Option.none_or]

theorem inRule?_of_present {key : String} {value : Toml} (h : document.get? ("rule." ++ key) = some value) :
    inRule? document key = some value := by
  rw [inRule?, h, Option.some_or]

/-! ## The judgement -/

/-- What is made of a rule for which this type and this query are found. -/
def judged (type query : Option Toml) : Except ExtractionError Extraction :=
  match type with
  | some (.string type) =>
    if type = ruleType then
      match query with
      | none => .error .missingQuery
      | some query => .ok (extracted query.answer)
    else .ok skip
  | _ => .ok skip

/-- A rule is skipped unless its type is found to be the one of rules with a query. -/
theorem judged_ne_skip_iff {type query : Option Toml} :
    judged type query ≠ .ok skip ↔ type = some (.string ruleType) := by
  cases type with
  | none => simp [judged]
  | some value =>
      cases value with
      | string type =>
          by_cases htype : type = ruleType
          · cases query <;> simp [judged, htype]
          · simp [judged, htype]
      | integer | float | boolean | dateTime | array | table => simp [judged]

theorem fromRule_eq [Diagnostics] (hread : Toml.read? content = some document) :
    fromRule content = judged (inRule? document "type") (inRule? document "query") := by
  have htype : lookup Toml.get? document "rule.type" = inRule? document "type" :=
    @lookup_inRule document "type" (by decide +kernel)
  have hquery : lookup Toml.get? document "rule.query" = inRule? document "query" :=
    @lookup_inRule document "query" (by decide +kernel)
  rw [fromRule, readToml_of_read hread]
  simp only [bind, Except.bind]
  rw [htype, hquery]
  rfl

/-- **A rule is judged by its table alone, where no key of the document takes its place.** Two documents with the
    same value under `rule` are judged alike, if they have the same under the keys `rule.type` and `rule.query`.
    Without a key `rule.type`, a document is skipped unless the type in its table is the one of rules with a query;
    with such a key, it is skipped unless this is the value of the key, whatever the table says. -/
theorem rule_judged_by_table [Diagnostics] (hread : Toml.read? content = some document)
    (hread' : Toml.read? content' = some document')
    (hrule : document.get? "rule" = document'.get? "rule")
    (hkeys : ∀ path ∈ ["rule.type", "rule.query"], document.get? path = document'.get? path) :
    fromRule content = fromRule content' ∧
      (document.get? "rule.type" = none → (fromRule content ≠ .ok skip ↔
        ∃ rule, document.get? "rule" = some rule ∧ rule.get? "type" = some (.string ruleType))) ∧
      ∀ value, document.get? "rule.type" = some value → (fromRule content ≠ .ok skip ↔ value = .string ruleType) := by
  have hfound {key : String} (hkey : document.get? ("rule." ++ key) = document'.get? ("rule." ++ key)) :
      inRule? document key = inRule? document' key := by
    rw [inRule?, inRule?, hkey, hrule]
  have htype : inRule? document "type" = inRule? document' "type" := hfound (hkeys "rule.type" (by simp))
  have hquery : inRule? document "query" = inRule? document' "query" := hfound (hkeys "rule.query" (by simp))
  refine ⟨?_, ?_, ?_⟩
  · rw [fromRule_eq hread, fromRule_eq hread', htype, hquery]
  · intro habsent
    rw [fromRule_eq hread, judged_ne_skip_iff, inRule?_of_absent habsent, Option.bind_eq_some_iff]
  · intro value hvalue
    rw [fromRule_eq hread, judged_ne_skip_iff, inRule?_of_present hvalue, Option.some_inj]

/-! ## A key beside the table -/

/-- The text of a detection rule behind an assignment to another key. -/
def keyedRuleText (key value type query : String) : List Char :=
  Toml.assignmentText (Toml.dottedText [key]) value ++ '\n' :: Toml.ruleText type query

/-- The table that is a detection rule with another key behind its own. -/
def keyedRule (key value type query : String) : Toml :=
  .table [("rule", .table [("query", .string query), ("type", .string type)]), (key, .string value)]

theorem document?_keyedRule {key : String} (hkey : "rule" < key) (value type query : String) :
    Toml.document? (.assign ⟨[key], .value (.string value)⟩ :: Toml.ruleStatements type query) =
      some (keyedRule key value type query) := by
  have horder : "query" < "type" := by decide
  have hdate : "type" ≠ Toml.dateTimeKey := by decide
  have hne : key ≠ "rule" := fun heq => String.lt_irrefl _ (heq ▸ hkey)
  simp [Toml.ruleStatements, Toml.document?, Toml.sections, Toml.section?, Toml.within?, Toml.tableUnder?,
    Toml.assignAll?, Toml.assign?, Toml.Entries.get?, Toml.Entries.erase, Toml.entryValues?, Toml.Node.toValue?,
    Toml.tableValue?, hdate, Toml.sortByKey, Toml.insertByKey, horder, hkey, hne, keyedRule]

theorem read?_keyedRule {key : String} (hkey : "rule" < key) (value type query : String) :
    Toml.read? (String.ofList (keyedRuleText key value type query)) = some (keyedRule key value type query) := by
  obtain ⟨cs, hcs⟩ := Toml.exists_dottedText (List.cons_ne_nil key [])
  have hspells : Toml.Spells (Toml.dottedText [key]) [key] :=
    Toml.spells_dottedText (List.cons_ne_nil key []) (by simp [Toml.maxLevels])
  have hassignment := Toml.assignment?_text hspells value
    (show ('\n' :: Toml.ruleText type query).head? ≠ some '"' by simp)
  have htext : keyedRuleText key value type query =
      '"' :: (cs ++ ' ' :: '=' :: ' ' :: Toml.line value ++ '\n' :: Toml.ruleText type query) := by
    rw [keyedRuleText, Toml.assignmentText, hcs]
    rfl
  have hlength : ∃ n, (cs ++ ' ' :: '=' :: ' ' :: Toml.line value ++ '\n' :: Toml.ruleText type query).length + 2 =
      n + 4 + 1 := ⟨(cs ++ Toml.line value ++ Toml.ruleText type query).length + 1, by simp; omega⟩
  obtain ⟨n, hn⟩ := hlength
  rw [← keyedRuleText, htext] at hassignment
  rw [htext, Toml.read?_ofList (by decide), hn,
    Toml.statements?_line (by decide) (Toml.statement?_assignment (by decide) hassignment) rfl, Toml.statements?_rule,
    Option.map_some, Option.bind_some, document?_keyedRule hkey]

/-- The other key of two rules differs, and so does how much of each is written. -/
theorem rule_judged_by_table_threat :
    let content := String.ofList (Toml.ruleText "esql" "FROM a")
    let content' := String.ofList (keyedRuleText "threat" "eql" "esql" "FROM a")
    ∃ document document', (Toml.read? content = some document ∧ Toml.read? content' = some document' ∧
        document.get? "rule" = document'.get? "rule" ∧
        ∀ path ∈ ["rule.type", "rule.query"], document.get? path = document'.get? path) ∧
      fromRule content = fromRule content' ∧ fromRule content ≠ .ok skip := by
  intro content content'
  have hread : Toml.read? content = some (Toml.rule "esql" "FROM a") := Toml.read?_rule "esql" "FROM a"
  have hread' : Toml.read? content' = some (keyedRule "threat" "eql" "esql" "FROM a") :=
    read?_keyedRule (by decide) "eql" "esql" "FROM a"
  have hrule : (Toml.rule "esql" "FROM a").get? "rule" = (keyedRule "threat" "eql" "esql" "FROM a").get? "rule" := rfl
  have hkeys : ∀ path ∈ ["rule.type", "rule.query"],
      (Toml.rule "esql" "FROM a").get? path = (keyedRule "threat" "eql" "esql" "FROM a").get? path := by
    simp [Toml.rule, keyedRule, Toml.get?]
  obtain ⟨hsame, htable, -⟩ := rule_judged_by_table hread hread' hrule hkeys
  exact ⟨_, _, ⟨hread, hread', hrule, hkeys⟩, hsame, (htable rfl).mpr ⟨_, rfl, rfl⟩⟩

/-- A key of the document takes the place of the table: two documents with the same rule are judged differently. -/
theorem rule_key_before_table :
    let content := String.ofList (Toml.ruleText "esql" "FROM a")
    let content' := String.ofList (keyedRuleText "rule.type" "eql" "esql" "FROM a")
    (∃ document document', Toml.read? content = some document ∧ Toml.read? content' = some document' ∧
        document.get? "rule" = document'.get? "rule" ∧
        (document'.get? "rule").bind (Toml.get? · "type") = some (.string ruleType)) ∧
      fromRule content = .ok (extracted "FROM a") ∧ fromRule content' = .ok skip := by
  intro content content'
  have hread : Toml.read? content = some (Toml.rule "esql" "FROM a") := Toml.read?_rule "esql" "FROM a"
  have hread' : Toml.read? content' = some (keyedRule "rule.type" "eql" "esql" "FROM a") :=
    read?_keyedRule (by decide) "eql" "esql" "FROM a"
  refine ⟨⟨_, _, hread, hread', rfl, rfl⟩, ?_, ?_⟩
  · rw [fromRule_eq hread]
    rfl
  · rw [fromRule_eq hread']
    rfl

end Esql.Extraction
