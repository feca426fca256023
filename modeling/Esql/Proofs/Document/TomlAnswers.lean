import Esql.Proofs.Document.RuleFields
import Esql.Proofs.Document.TomlSound
import Esql.Proofs.Document.TomlText
import Esql.Proofs.Document.TomlValues

/-!
# `Proofs.Document.TomlAnswers` — what is extracted is the value in its notation

What is extracted from a document where no string is found is the text of the value that is: put behind a key, it makes
up a document in which this key has that value again (`answer_read_back`). This takes what is known of every value that
a document holds, and that such values are read as they are written.

There is one way in which a value is lost. In a document the entries of a table may stand in any order, and they are
written in the order of their keys; a table that has the key of dates and times behind another one when it is read may
have it in front when it is written, and then stands for a date or time, or for nothing at all.

## Contents
- `written`, the value whose text is extracted.
- A document with one key.
- What is extracted, and what it is read as.
-/

namespace Esql

namespace Document.Toml

variable {v : Toml}

/-! ## The value that is written -/

/-- The value whose text is extracted: a date or time by itself is written as the table that stands for it. -/
def written : Toml → Toml
  | dateTime d => table [(dateTimeKey, string (String.ofList d.text))]
  | v => v

theorem answer_eq (h : ∀ s, v ≠ string s) : v.answer = String.ofList v.written.text := by
  cases v with
  | string s => exact absurd rfl (h s)
  | integer | float | boolean | dateTime | array | table => rfl

theorem Sound.written (h : v.Sound) : v.written.Sound := by
  cases h with
  | dateTime hd =>
      refine .table (List.pairwise_singleton _ _) fun entry hentry => ?_
      rw [List.mem_singleton.mp hentry]
      exact .string _
  | string | float | boolean => constructor
  | integer hn => exact .integer hn
  | array hitems => exact .array hitems
  | table hpairwise hentries => exact .table hpairwise hentries

theorem FloatFree.written (h : v.FloatFree) : v.written.FloatFree := by
  cases v with
  | dateTime d =>
      refine floatFree_table_iff.mpr fun entry hentry x hpart => ?_
      rw [List.mem_singleton.mp hentry] at hpart
      cases hpart
  | string | integer | float | boolean | array | table => exact h

theorem levels_written {n : Nat} (h : v.levels ≤ n + 1) : v.written.levels ≤ n + 1 := by
  cases v with
  | dateTime d => exact Nat.le_add_left 1 n
  | string | integer | float | boolean | array | table => exact h

/-- What is read of the text of a value stands for the value, unless a table in it is marked as a date or time. -/
theorem toValue?_written_iff (h : v.Sound) : v.written.node.toValue? = some v ↔ v.Unmarked := by
  cases h with
  | @dateTime d hd =>
      have hdate : (dateTime d).written.node.toValue? = (dateTimeOfString? (String.ofList d.text)).map dateTime := rfl
      rw [hdate, dateTimeOfString?_text hd]
      exact iff_of_true rfl fun _ hpart => nomatch hpart
  | string s => exact toValue?_node_iff (.string s)
  | integer hn => exact toValue?_node_iff (.integer hn)
  | float x => exact toValue?_node_iff (.float x)
  | boolean b => exact toValue?_node_iff (.boolean b)
  | array hitems => exact toValue?_node_iff (.array hitems)
  | table hpairwise hentries => exact toValue?_node_iff (.table hpairwise hentries)

/-! ## Documents of one key -/

theorem document?_assigned (key : String) (node : Node) :
    document? [.assign ⟨[key], node⟩] = node.toValue?.map fun v => table [(key, v)] := by
  show (do
    let entries ← entryValues? [(key, node)]
    return table (sortByKey entries)) = _
  cases hvalue : node.toValue? with
  | none => simp [entryValues?, hvalue]
  | some v => simp [entryValues?, hvalue, sortByKey, insertByKey]

/-- The document that assigns a value to a key holds what is read of the text of the value. -/
theorem read?_assigned {text : List Char} {node : Node} (hopens : Opens text)
    (hread : value? maxLevels text = some (node, [])) :
    read? ("x = " ++ String.ofList text) = node.toValue?.map fun v => table [("x", v)] := by
  have hkey : Spells ['x'] ["x"] := fun _ => rfl
  have hassignment : assignment? (value? maxLevels) ('x' :: ' ' :: '=' :: ' ' :: text) = some (⟨["x"], node⟩, []) := by
    have hkey : key? maxLevels ('x' :: ' ' :: '=' :: ' ' :: text) = some (["x"], '=' :: ' ' :: text) := hkey _
    simp [assignment?, hkey, behind?, skipSpace_space, skipSpace_opens hopens, hread]
  have hwhole : "x = " ++ String.ofList text = String.ofList ('x' :: ' ' :: '=' :: ' ' :: text) := by
    rw [← String.toList_inj]
    simp
  rw [hwhole, read?_ofList (by decide),
    statements?_line (by decide) (statement?_assignment (by decide) hassignment) rfl, ← document?_assigned]
  rfl

end Document.Toml

namespace Extraction

open Esql.Document

/-! ## What is extracted -/

/-- **What is extracted of a value that is no string is the value in its notation.** Where a field of a document leads
    to a value without floats in which fewer than 80 arrays and tables are nested, a text is extracted that is read
    behind a key as this value again, exactly if no table in the value has the key of dates and times as the first of
    its keys in their order. -/
theorem answer_read_back [Diagnostics] {content field : String} {document v : Toml}
    (hread : Toml.read? content = some document) (hfound : lookup Toml.get? document field = some v)
    (hstring : ∀ s, v ≠ .string s) (hfloat : v.FloatFree) (hlevels : v.levels < 80) :
    ∃ text, fromToml content field = .ok (.extracted text) ∧
      ((∃ assigned, Toml.read? ("x = " ++ text) = some assigned ∧ assigned.get? "x" = some v) ↔ v.Unmarked) := by
  have hsound : v.Sound := Toml.sound_of_lookup (Toml.sound_of_read? hread) hfound
  have hopens := Toml.opens_text hsound.written hfloat.written
  -- The table that is written for a date or time has one level, so 79 levels are enough for what is written.
  have hvalue := Toml.reads_text hsound.written hfloat.written
    (Toml.levels_written (show v.levels ≤ 78 + 1 by omega)) [] .nothing
  rw [List.append_nil] at hvalue
  refine ⟨v.answer, ?_, ?_⟩
  · rw [fromToml_of_read hread, hfound]
    rfl
  · rw [← Toml.toValue?_written_iff hsound, Toml.answer_eq hstring, Toml.read?_assigned hopens hvalue]
    cases v.written.node.toValue? with
    | none => simp
    | some value => simp [Toml.get?]

/-- An array of a date and an integer, and behind it a table whose keys are written in another order than they are
    read. -/
theorem answer_read_back_nested :
    let content := "t = [[1979-05-27, -5], \x7bb = \"c\", a = true\x7d]"
    let v := Toml.array [.array [.dateTime (.day ⟨1979, 5, 27⟩), .integer (-5)],
      .table [("a", .boolean true), ("b", .string "c")]]
    ∃ document, (Toml.read? content = some document ∧ lookup Toml.get? document "t" = some v ∧
        (∀ s, v ≠ .string s) ∧ v.FloatFree ∧ v.levels < 80 ∧ v.Unmarked) ∧
      ∃ text, fromToml content "t" = .ok (.extracted text) ∧
        ∃ assigned, Toml.read? ("x = " ++ text) = some assigned ∧ assigned.get? "x" = some v := by
  intro content v
  have hread : Toml.read? content = some (.table [("t", v)]) := by decide +kernel
  have hfound : lookup Toml.get? (.table [("t", v)]) "t" = some v := by simp [lookup, Toml.get?]
  have hstring : ∀ s, v ≠ .string s := fun s => Toml.noConfusion
  have hfloat : v.FloatFree := by
    simp only [v, Toml.floatFree_array_iff, Toml.floatFree_table_iff, List.forall_mem_cons]
    refine ⟨⟨?_, ?_, by simp⟩, ⟨?_, ?_, by simp⟩, by simp⟩
    all_goals
      intro x hpart
      cases hpart
  have hlevels : v.levels < 80 := by decide
  have hunmarked : v.Unmarked := by
    simp only [v, Toml.unmarked_array_iff, Toml.unmarked_table_iff, List.forall_mem_cons]
    refine ⟨⟨?_, ?_, by simp⟩, ⟨by decide, ?_, ?_, by simp⟩, by simp⟩
    all_goals
      intro entries hpart
      cases hpart
  obtain ⟨text, htext, hback⟩ := answer_read_back hread hfound hstring hfloat hlevels
  exact ⟨_, ⟨hread, hfound, hstring, hfloat, hlevels, hunmarked⟩, text, htext, hback.mpr hunmarked⟩

/-- A table whose key of dates and times stands behind another one when it is read, and in front of it when it is
    written: the text that is extracted of the table is read as a date. -/
theorem answer_marked_lost :
    let content := "t = \x7b a = true, \"$__toml_private_datetime\" = \"1979-05-27\" \x7d"
    let text := "\x7b \"$__toml_private_datetime\" = \"1979-05-27\", a = true \x7d"
    let v := Toml.table [(Toml.dateTimeKey, .string "1979-05-27"), ("a", .boolean true)]
    (∃ document, Toml.read? content = some document ∧ lookup Toml.get? document "t" = some v) ∧
      (∀ s, v ≠ .string s) ∧ v.FloatFree ∧ v.levels < 80 ∧ fromToml content "t" = .ok (.extracted text) ∧
      ¬ ∃ assigned, Toml.read? ("x = " ++ text) = some assigned ∧ assigned.get? "x" = some v := by
  intro content text v
  have hread : Toml.read? content = some (.table [("t", v)]) := by decide +kernel
  have hfound : lookup Toml.get? (.table [("t", v)]) "t" = some v := by simp [lookup, Toml.get?]
  have hfloat : v.FloatFree := by
    simp only [v, Toml.floatFree_table_iff, List.forall_mem_cons]
    refine ⟨?_, ?_, by simp⟩
    all_goals
      intro x hpart
      cases hpart
  have hback : Toml.read? ("x = " ++ text) = some (.table [("x", .dateTime (.day ⟨1979, 5, 27⟩))]) := by
    decide +kernel
  have hanswer : v.answer = text := by decide +kernel
  have hextracted : fromToml content "t" = .ok (.extracted text) := by
    rw [fromToml_of_read hread, hfound, ← hanswer]
    rfl
  refine ⟨⟨_, hread, hfound⟩, fun s => Toml.noConfusion, hfloat, by decide, hextracted, ?_⟩
  rintro ⟨assigned, hassigned, hget⟩
  rw [hback] at hassigned
  obtain rfl := Option.some.inj hassigned
  have hdate := Option.some.inj hget
  contradiction

end Extraction

end Esql
