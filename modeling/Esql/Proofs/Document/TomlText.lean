import Esql.Document.KeyPath
import Esql.Document.Toml.Reader
import Esql.Document.Toml.Writer

/-!
# `Proofs.Document.TomlText` — written TOML is read again

A string that is written on one line with escapes comes back when it is read, as a value and as a part of a key. A
document with one assignment under a dotted key is then read as a row of tables, each of which holds the next
(`read?_nested`). The tables are read as they are written only if no key behind the first is the one that makes
a table stand for a date or time: such a table is read as the date or time instead, or refused.

## Contents
- `LineWritten`, how a character is written on one line, and strings.
- `Spells` and `assignmentText`, keys and assignments.
- `nested` and `chain`, the row of tables that a dotted key makes.
- Documents of one assignment, and detection rules.
-/

namespace Esql.Document.Toml

open Esql.Number

/-! ## Strings -/

/-- A character inside a string on one line, as it is written. -/
def lineEscaped (c : Char) : List Char :=
  if c = '"' then ['\\', '"'] else if c = '\n' then ['\\', 'n'] else (escaped? c).getD [c]

/-- A string on one line between its quotes. -/
def line (s : String) : List Char := inForm s.toList .basicLine

/-- The three ways in which a character is written on one line. -/
inductive LineWritten (c : Char) : Prop where
  | letter (e : Char) (text : lineEscaped c = ['\\', e]) (stands : simpleEscape? e = some c)
  | digits (control : c.toNat < 0x20 ∨ c.toNat = 0x7f)
      (text : lineEscaped c = ['\\', 'u', '0', '0', hexDigit (c.toNat / 16), hexDigit c.toNat])
  | itself (text : lineEscaped c = [c]) (quote : c ≠ '"') (backslash : c ≠ '\\') (visible : isPrintable c)

theorem lineWritten (c : Char) : LineWritten c := by
  by_cases hletter : c ∈ ['"', '\n', '\x08', '\t', '\x0c', '\r', '\\']
  · simp only [List.mem_cons, List.not_mem_nil, or_false] at hletter
    rcases hletter with rfl | rfl | rfl | rfl | rfl | rfl | rfl
    all_goals exact .letter _ rfl rfl
  · simp only [List.mem_cons, List.not_mem_nil, or_false, not_or] at hletter
    obtain ⟨hquote, hn, h8, ht, hc, hr, hbackslash⟩ := hletter
    by_cases hcontrol : isControl c
    · refine .digits ?_ (by simp [lineEscaped, escaped?, *])
      simp only [isControl, Bool.or_eq_true, Bool.and_eq_true, decide_eq_true_eq] at hcontrol
      obtain ⟨⟨hlow, -⟩, -⟩ | rfl := hcontrol
      · exact .inl hlow
      · exact .inr rfl
    · refine .itself (by simp [lineEscaped, escaped?, *]) hquote hbackslash ?_
      simp [isControl, isPrintable, *] at hcontrol ⊢
      exact hcontrol

/-- The control characters, which are written by their number. -/
theorem codePoint?_hexDigits {c : Char} (hc : c.toNat < 0x20 ∨ c.toNat = 0x7f) :
    codePoint? ['0', '0', hexDigit (c.toNat / 16), hexDigit c.toNat] = some c := by
  have hall : ∀ n < 0x80, (n < 0x20 ∨ n = 0x7f) →
      codePoint? ['0', '0', hexDigit (n / 16), hexDigit n] = some (Char.ofNat n) := by decide
  rw [hall c.toNat (by omega) hc, Char.ofNat_toNat]

/-- The letters of the simple escapes are not those of the numbered ones. -/
theorem simpleEscape?_letter {e c : Char} (h : simpleEscape? e = some c) : e ≠ 'u' ∧ e ≠ 'U' := by
  constructor
  · rintro rfl
    cases h
  · rintro rfl
    cases h

/-- A written character is read in one step. -/
theorem basicLine?_lineEscaped (c : Char) (done rest : List Char) :
    basicLine? done (lineEscaped c ++ rest) = basicLine? (c :: done) rest := by
  cases lineWritten c with
  | letter e text stands =>
      obtain ⟨hu, hU⟩ := simpleEscape?_letter stands
      rw [text]
      simp [basicLine?, stands, hu, hU]
  | digits control text =>
      rw [text]
      simp [basicLine?, codePoint?_hexDigits control]
  | itself text quote backslash visible =>
      rw [text]
      simp [basicLine?, visible, backslash]

/-- What stands behind the opening quote of a string is read to its closing quote. -/
theorem basicLine?_written (cs done rest : List Char) :
    basicLine? done (cs.flatMap lineEscaped ++ '"' :: rest) = some (String.ofList (done.reverse ++ cs), rest) := by
  induction cs generalizing done with
  | nil => simp [basicLine?]
  | cons c cs ih => simp [basicLine?_lineEscaped, ih]

theorem line_append (s : String) (rest : List Char) :
    line s ++ rest = '"' :: (s.toList.flatMap lineEscaped ++ '"' :: rest) := by
  change '"' :: s.toList.flatMap lineEscaped ++ ['"'] ++ rest = _
  simp

/-- A string on one line is not taken for the beginning of one on several lines: it does not begin with a quote,
    and where it is empty, no third quote stands behind it. -/
theorem string?_line (s : String) {rest : List Char} (h : rest.head? ≠ some '"') :
    string? (line s ++ rest) = some (s, rest) := by
  have hread : basicLine? [] (s.toList.flatMap lineEscaped ++ '"' :: rest) = some (s, rest) := by
    rw [basicLine?_written, List.reverse_nil, List.nil_append, String.ofList_toList]
  rw [line_append]
  cases hs : s.toList with
  | nil =>
      cases rest with
      | nil => simpa [hs, string?] using hread
      | cons c rest =>
          have hc : c ≠ '"' := by rintro rfl; exact h rfl
          simpa [hs, string?, hc] using hread
  | cons c cs =>
      rw [hs] at hread
      rw [← hread]
      cases lineWritten c with
      | letter e text stands => simp [text, string?]
      | digits control text => simp [text, string?]
      | itself text quote backslash visible => simp [text, string?, quote]

/-! ## Keys and values -/

/-- A dotted key, each part of which is written as a string on one line. -/
def dottedText (keys : List String) : List Char := List.intercalate ['.'] (keys.map line)

theorem keyPart?_line (s : String) (rest : List Char) : keyPart? (line s ++ rest) = some (s, rest) := by
  rw [line_append, keyPart?, basicLine?_written, List.reverse_nil, List.nil_append, String.ofList_toList]

theorem skipSpace_space (cs : List Char) : skipSpace (' ' :: cs) = skipSpace cs := rfl

theorem skipSpace_cons {c : Char} (hspace : c ≠ ' ') (htab : c ≠ '\t') (cs : List Char) :
    skipSpace (c :: cs) = c :: cs := by
  simp [skipSpace, hspace, htab]

theorem skipSpace_line (s : String) (rest : List Char) : skipSpace (line s ++ rest) = line s ++ rest := by
  rw [line_append, skipSpace_cons (by decide) (by decide)]

theorem key?_dottedText {keys : List String} {n : Nat} (hne : keys ≠ []) (hn : keys.length ≤ n)
    (rest : List Char) :
    key? n (dottedText keys ++ ' ' :: '=' :: rest) = some (keys, '=' :: rest) := by
  induction keys generalizing n with
  | nil => contradiction
  | cons key keys ih =>
      obtain ⟨n, rfl⟩ : ∃ m, n = m + 1 :=
        Nat.exists_eq_add_one_of_ne_zero (by rw [List.length_cons] at hn; omega)
      cases keys with
      | nil =>
          have htext : dottedText [key] ++ ' ' :: '=' :: rest = line key ++ ' ' :: '=' :: rest := by
            simp [dottedText]
          simp only [htext, key?, skipSpace_line, keyPart?_line, skipSpace_space,
            skipSpace_cons (show '=' ≠ ' ' by decide) (by decide)]
          rfl
      | cons next keys =>
          have htext : dottedText (key :: next :: keys) ++ ' ' :: '=' :: rest =
              line key ++ '.' :: (dottedText (next :: keys) ++ ' ' :: '=' :: rest) := by
            simp [dottedText, List.intercalate_cons_cons]
          simp only [htext, key?, skipSpace_line, keyPart?_line,
            skipSpace_cons (show '.' ≠ ' ' by decide) (by decide),
            ih (List.cons_ne_nil next keys) (Nat.le_of_succ_le_succ hn)]
          rfl

theorem value?_line (levels : Nat) (s : String) {rest : List Char} (h : rest.head? ≠ some '"') :
    value? levels (line s ++ rest) = some (.value (string s), rest) := by
  have hscalar : scalar? (line s ++ rest) = some (string s, rest) := by
    have hstring := string?_line s h
    rw [line_append] at hstring ⊢
    rw [scalar?, hstring]
    rfl
  rw [line_append] at hscalar ⊢
  cases levels with
  | zero => rw [value?, hscalar]; rfl
  | succ => simp [value?, hscalar]

/-- A text that is read as a key where blanks and an equals sign stand behind it. -/
def Spells (text : List Char) (keys : List String) : Prop :=
  ∀ rest, key? maxLevels (text ++ ' ' :: '=' :: rest) = some (keys, '=' :: rest)

theorem spells_dottedText {keys : List String} (hne : keys ≠ []) (hn : keys.length ≤ maxLevels) :
    Spells (dottedText keys) keys := fun rest => key?_dottedText hne hn rest

/-- The text of an assignment of a string. -/
def assignmentText (key : List Char) (s : String) : List Char := key ++ ' ' :: '=' :: ' ' :: line s

theorem assignment?_text {text : List Char} {keys : List String} (hkey : Spells text keys) (s : String)
    {rest : List Char} (h : rest.head? ≠ some '"') :
    assignment? (value? maxLevels) (assignmentText text s ++ rest) = some (⟨keys, .value (string s)⟩, rest) := by
  have htext : assignmentText text s ++ rest = text ++ ' ' :: '=' :: (' ' :: (line s ++ rest)) := by
    simp [assignmentText]
  simp [assignment?, htext, hkey _, behind?, skipSpace_space, skipSpace_line, value?_line _ s h]

/-! ## Tables -/

/-- A value in a row of tables, one for each key, each of which holds the next alone. -/
def nested (keys : List String) (value : Toml) : Toml := keys.foldr (fun key inner => table [(key, inner)]) value

/-- What an assignment to a dotted key puts under the first part of the key. -/
def chain (keys : List String) (node : Node) : Node :=
  keys.foldr (fun key inner => .table true true [(key, inner)]) node

theorem assign?_chain (node : Node) (key : String) (keys : List String) :
    assign? node (key :: keys) [] = some [(key, chain keys node)] := by
  induction keys generalizing key with
  | nil => rfl
  | cons next keys ih => simp [assign?, Entries.get?, ih next, chain]

theorem toValue?_chain {keys : List String} (h : dateTimeKey ∉ keys) (value : Toml) :
    (chain keys (.value value)).toValue? = some (nested keys value) := by
  induction keys with
  | nil => rfl
  | cons key keys ih =>
      rw [List.mem_cons, not_or] at h
      have hkey : key ≠ dateTimeKey := fun heq => h.1 heq.symm
      have hinner := ih h.2
      simp only [chain, nested, List.foldr_cons] at hinner ⊢
      simp [Node.toValue?, tableValue?, hkey, hinner, entryValues?, sortByKey, insertByKey]

theorem document?_assignment {keys : List String} (hne : keys ≠ []) (h : dateTimeKey ∉ keys.tail) (value : Toml) :
    document? [.assign ⟨keys, .value value⟩] = some (nested keys value) := by
  cases keys with
  | nil => contradiction
  | cons key keys =>
      have hvalue := toValue?_chain (show dateTimeKey ∉ keys from h) value
      simp only [nested, List.foldr_cons] at hvalue ⊢
      simp [document?, sections, assignAll?, assign?_chain, entryValues?, hvalue, sortByKey, insertByKey]

/-! ## Documents -/

/-- A line that begins with a statement. -/
theorem statements?_line {n : Nat} {c : Char} {cs rest after : List Char} {statement : Statement}
    (hc : c ∉ [' ', '\t', '\n', '\r', '#']) (hstatement : statement? (c :: cs) = some (statement, rest))
    (hend : lineEnd? rest = some after) :
    statements? (n + 1) (c :: cs) = (statements? n after).map (statement :: ·) := by
  simp only [List.mem_cons, List.not_mem_nil, or_false, not_or] at hc
  obtain ⟨hspace, htab, hfeed, hreturn, hcomment⟩ := hc
  simp [statements?, skipSpace_cons hspace htab, hfeed, hreturn, hcomment, hstatement, hend]

theorem statement?_assignment {c : Char} {cs rest : List Char} {assignment : Assignment} (hc : c ≠ '[')
    (h : assignment? (value? maxLevels) (c :: cs) = some (assignment, rest)) :
    statement? (c :: cs) = some (.assign assignment, rest) := by
  simp [statement?, hc, h]

theorem read?_ofList {c : Char} (hc : c ≠ '\ufeff') (cs : List Char) :
    read? (String.ofList (c :: cs)) = (statements? (cs.length + 2) (c :: cs)).bind document? := by
  rw [read?, String.toList_ofList]
  simp [skipMark, hc]

theorem exists_dottedText {keys : List String} (hne : keys ≠ []) : ∃ cs, dottedText keys = '"' :: cs := by
  match keys, hne with
  | [key], _ =>
      exact ⟨basicLineBody key.toList ++ ['"'], by simp [dottedText, line, inForm]⟩
  | key :: next :: keys, _ =>
      exact ⟨basicLineBody key.toList ++ '"' :: '.' :: dottedText (next :: keys),
        by simp [dottedText, List.intercalate_cons_cons, line, inForm]⟩

/-- The document that assigns a string to a dotted key is the table of that one statement. -/
theorem read?_assignmentText {keys : List String} (hne : keys ≠ []) (hn : keys.length ≤ maxLevels) (s : String) :
    read? (String.ofList (assignmentText (dottedText keys) s)) =
      document? [.assign ⟨keys, .value (string s)⟩] := by
  have hassignment := assignment?_text (spells_dottedText hne hn) s (show [].head? ≠ some '"' by simp)
  obtain ⟨cs, hcs⟩ := exists_dottedText hne
  rw [List.append_nil, assignmentText, hcs, List.cons_append] at hassignment
  rw [assignmentText, hcs, List.cons_append, read?_ofList (by decide),
    statements?_line (by decide) (statement?_assignment (by decide) hassignment) rfl]
  rfl

theorem read?_nested {keys : List String} (hne : keys ≠ []) (hn : keys.length ≤ maxLevels)
    (h : dateTimeKey ∉ keys.tail) (s : String) :
    read? (String.ofList (assignmentText (dottedText keys) s)) = some (nested keys (string s)) := by
  rw [read?_assignmentText hne hn, document?_assignment hne h]

theorem foldlM_get?_nested (keys : List String) (value : Toml) :
    keys.foldlM get? (nested keys value) = some value := by
  induction keys with
  | nil => rfl
  | cons key keys ih => simpa [nested, get?] using ih

/-! ## Detection rules -/

/-- The lines of a detection rule behind its header. -/
def ruleLines (type query : String) : List Char :=
  assignmentText "type".toList type ++ '\n' :: assignmentText "query".toList query

/-- The text of a detection rule with a type and a query. -/
def ruleText (type query : String) : List Char := "[rule]\n".toList ++ ruleLines type query

/-- The statements of a detection rule with a type and a query. -/
def ruleStatements (type query : String) : List Statement :=
  [.header ["rule"], .assign ⟨["type"], .value (string type)⟩, .assign ⟨["query"], .value (string query)⟩]

/-- The table that is a detection rule with a type and a query. -/
def rule (type query : String) : Toml := table [("rule", table [("query", string query), ("type", string type)])]

theorem statements?_rule (type query : String) (n : Nat) :
    statements? (n + 4) (ruleText type query) = some (ruleStatements type query) := by
  have htype := assignment?_text (show Spells "type".toList ["type"] from fun _ => rfl) type
    (show ('\n' :: assignmentText "query".toList query).head? ≠ some '"' by simp)
  have hquery := assignment?_text (show Spells "query".toList ["query"] from fun _ => rfl) query
    (show [].head? ≠ some '"' by simp)
  rw [List.append_nil] at hquery
  calc statements? (n + 4) (ruleText type query)
    _ = (statements? (n + 3) (ruleLines type query)).map (.header ["rule"] :: ·) :=
        statements?_line (by decide) rfl rfl
    _ = ((statements? (n + 2) (assignmentText "query".toList query)).map
          (.assign ⟨["type"], .value (string type)⟩ :: ·)).map (.header ["rule"] :: ·) :=
        congrArg _ (statements?_line (c := 't') (by decide) (statement?_assignment (by decide) htype) rfl)
    _ = some (ruleStatements type query) :=
        congrArg _ (congrArg _
          (statements?_line (c := 'q') (by decide) (statement?_assignment (by decide) hquery) rfl))

theorem document?_rule (type query : String) :
    document? (ruleStatements type query) = some (rule type query) := by
  have horder : "query" < "type" := by decide
  have hkey : "type" ≠ dateTimeKey := by decide
  simp [ruleStatements, document?, sections, section?, within?, tableUnder?, assignAll?, assign?, Entries.get?,
    Entries.erase, entryValues?, Node.toValue?, tableValue?, hkey, sortByKey, insertByKey, horder, rule]

theorem read?_rule (type query : String) :
    read? (String.ofList (ruleText type query)) = some (rule type query) := by
  change read? (String.ofList ('[' :: ("rule]\n".toList ++ ruleLines type query))) = _
  rw [read?_ofList (by decide)]
  change (statements? (("]\n".toList ++ ruleLines type query).length + 2 + 4)
    (ruleText type query)).bind document? = _
  rw [statements?_rule, Option.bind_some, document?_rule]

theorem lookup_rule_type (type query : String) :
    lookup get? (rule type query) "rule.type" = some (string type) := by
  have hpath : splitDotted "rule.type" = some ["rule", "type"] := by decide +kernel
  simp [lookup, rule, get?, hpath]

theorem lookup_rule_query (type query : String) :
    lookup get? (rule type query) "rule.query" = some (string query) := by
  have hpath : splitDotted "rule.query" = some ["rule", "query"] := by decide +kernel
  simp [lookup, rule, get?, hpath]

end Esql.Document.Toml
