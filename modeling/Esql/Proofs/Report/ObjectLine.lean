import Esql.Proofs.Document.JsonNumbers
import Esql.Report.StatusLine
import Esql.Extraction

/-!
# `Proofs.Report.ObjectLine` — status lines are read back

A status line in the JSON style is an object that holds the name of the input and the verdict. The fields of the line
are found in it by the same extraction that finds queries in documents, and they come back as they were
(`object_read_back`): whatever characters the name and the message have, no field can be taken for another. So two
inputs with the same line are the same input with the same verdict.

## Contents
- The members of a line, as texts and as values.
- Fields that a line has, and fields that it lacks.
-/

namespace Esql.Report

open Esql.Document
open Esql.Extraction (fromJson)

/-- The status of an input, as lines give it. -/
def Verdict.status : Verdict → String
  | valid => "valid"
  | invalid .. => "invalid"
  | skipped => "skipped"

/-- The place of a fault is given by numbers of 64 bits. -/
def Verdict.FitsWords : Verdict → Prop
  | invalid line column _ => line < UInt64.size ∧ column < UInt64.size
  | _ => True

namespace StatusLine

/-! ## Members -/

/-- The members that tell a verdict, as values. -/
def verdictFields (verdict : Verdict) : List (String × Json) :=
  ("status", .string verdict.status) ::
    match verdict with
    | .invalid line column message =>
      [("line", .number (.integer line)), ("column", .number (.integer column)), ("message", .string message)]
    | _ => []

/-- The members of a line, as values. -/
def fields (input : String) (verdict : Verdict) : List (String × Json) :=
  ("input", .string input) :: verdictFields verdict

theorem isItem_stringMember (levels : Nat) (key value : String) :
    Json.IsItem (Json.member? (Json.value? levels)) '\x7d' (stringMember key value) (key, .string value) :=
  Json.isItem_member (fun c rest _ => Json.value?_quoted levels value (c :: rest)) key

/-- Neither a comma nor a brace goes on a number. -/
theorem isItem_numberMember (levels : Nat) (key : String) {n : Nat} (h : n < UInt64.size) :
    Json.IsItem (Json.member? (Json.value? levels)) '\x7d' (numberMember key n) (key, .number (.integer n)) := by
  refine Json.isItem_member (fun c rest hc => ?_) key
  have hends : Json.endsNumber c = true := by
    obtain rfl | rfl := hc
    · decide
    · decide
  exact Json.value?_decimal (Nat.le_sub_one_of_lt h) levels hends rest

/-- Each member of a line is read as the value that it was written for. -/
theorem isItem_verdictMembers (levels : Nat) {verdict : Verdict} (h : verdict.FitsWords) :
    ∃ items : List (List Char × (String × Json)),
      items.map Prod.fst = verdictMembers verdict ∧ items.map Prod.snd = verdictFields verdict ∧
        ∀ i ∈ items, Json.IsItem (Json.member? (Json.value? levels)) '\x7d' i.1 i.2 := by
  have hstatus : ∀ status : String,
      Json.IsItem (Json.member? (Json.value? levels)) '\x7d' (stringMember "status" status)
        ("status", .string status) := isItem_stringMember levels "status"
  cases verdict with
  | valid => exact ⟨[(_, _)], rfl, rfl, List.forall_mem_singleton.mpr (hstatus "valid")⟩
  | skipped => exact ⟨[(_, _)], rfl, rfl, List.forall_mem_singleton.mpr (hstatus "skipped")⟩
  | invalid line column message =>
      refine ⟨[(_, _), (_, _), (_, _), (_, _)], rfl, rfl, ?_⟩
      simp only [List.forall_mem_cons, List.not_mem_nil, false_implies, implies_true, and_true]
      exact ⟨hstatus "invalid", isItem_numberMember levels "line" h.1, isItem_numberMember levels "column" h.2,
        isItem_stringMember levels "message" message⟩

/-- A line is an object with its members in order, and nothing but a line feed stands behind it. -/
theorem read?_object (input : String) {verdict : Verdict} (h : verdict.FitsWords) :
    Json.read? (object input verdict).text = some (.object (fields input verdict)) := by
  obtain ⟨items, htexts, hvalues, hitems⟩ := isItem_verdictMembers 126 h
  have hmembers : ∀ m ∈ (stringMember "input" input, ("input", Json.string input)) :: items,
      Json.IsItem (Json.member? (Json.value? 126)) '\x7d' m.1 m.2 := by
    intro m hm
    obtain rfl | hm := List.mem_cons.mp hm
    · exact isItem_stringMember 126 "input" input
    · exact hitems m hm
  have hobject :
      Json.value? Json.maxLevels
          ('\x7b' :: (List.intercalate [','] (stringMember "input" input :: verdictMembers verdict) ++ ['\x7d', '\n'])) =
        some (.object (fields input verdict), ['\n']) := by
    rw [← htexts, fields, ← hvalues]
    exact Json.value?_object hmembers ['\n']
  have htext : (object input verdict).text.toList =
      '\x7b' :: (List.intercalate [','] (stringMember "input" input :: verdictMembers verdict) ++ ['\x7d', '\n']) := by
    simp [object]
  rw [Json.read?, htext, hobject]
  rfl

/-! ## Fields -/

/-- A field that a line has is extracted from it. -/
theorem fromJson_present [Diagnostics] {input : String} {verdict : Verdict} (h : verdict.FitsWords)
    {field text : String} {value : Json} (hget : Json.get? (.object (fields input verdict)) field = some value)
    (htext : Extraction.scalarText field value = .ok text) :
    fromJson (object input verdict).text field = .ok (.extracted text) := by
  rw [fromJson, read?_object input h]
  simp only [lookup, hget, htext]
  rfl

/-- A field that a line lacks is not found, if its name is a key by itself. -/
theorem fromJson_absent [Diagnostics] {input : String} {verdict : Verdict} (h : verdict.FitsWords) {field : String}
    (hget : Json.get? (.object (fields input verdict)) field = none) (hkey : splitDotted field = some [field]) :
    fromJson (object input verdict).text field = .error (.fieldNotFound field .json) := by
  rw [fromJson, read?_object input h]
  simp only [lookup, hget, hkey, List.foldlM_cons]
  rfl

end StatusLine

open StatusLine

/-- What the fields of a line tell about a verdict: its status, and for a fault its place and message; a line for any
    other verdict has no such fields. -/
def TellsVerdict [Diagnostics] (line : String) : Verdict → Prop
  | .invalid row column message =>
    fromJson line "status" = .ok (.extracted "invalid") ∧
      fromJson line "line" = .ok (.extracted (toString row)) ∧
      fromJson line "column" = .ok (.extracted (toString column)) ∧
      fromJson line "message" = .ok (.extracted message)
  | verdict =>
    fromJson line "status" = .ok (.extracted verdict.status) ∧
      ∀ field ∈ ["line", "column", "message"], fromJson line field = .error (.fieldNotFound field .json)

/-- A line with two members lacks every field that tells about a fault. -/
theorem fromJson_details [Diagnostics] {input : String} {verdict : Verdict} (h : verdict.FitsWords)
    (hfields : fields input verdict = [("input", .string input), ("status", .string verdict.status)]) :
    ∀ field ∈ ["line", "column", "message"],
      fromJson (object input verdict).text field = .error (.fieldNotFound field .json) := by
  have habsent : ∀ field, field ≠ "input" → field ≠ "status" → splitDotted field = some [field] →
      fromJson (object input verdict).text field = .error (.fieldNotFound field .json) := by
    intro field hinput hstatus hkey
    refine fromJson_absent h ?_ hkey
    simp [hfields, Json.get?, hinput.symm, hstatus.symm]
  simp only [List.forall_mem_cons, List.not_mem_nil, false_implies, implies_true, and_true]
  exact ⟨habsent "line" (by decide) (by decide) (by decide +kernel),
    habsent "column" (by decide) (by decide) (by decide +kernel),
    habsent "message" (by decide) (by decide) (by decide +kernel)⟩

theorem tellsVerdict_object [Diagnostics] (input : String) {verdict : Verdict} (h : verdict.FitsWords) :
    TellsVerdict (object input verdict).text verdict := by
  cases verdict with
  | valid => exact ⟨fromJson_present h rfl rfl, fromJson_details h rfl⟩
  | skipped => exact ⟨fromJson_present h rfl rfl, fromJson_details h rfl⟩
  | invalid line column message =>
      have hnumber : ∀ (field : String) (n : Nat),
          Extraction.scalarText field (.number (.integer n)) = .ok (toString n) := by
        intro field n
        rw [Nat.toString_eq_ofList_toDigits]
        rfl
      exact ⟨fromJson_present h rfl rfl, fromJson_present h rfl (hnumber "line" line),
        fromJson_present h rfl (hnumber "column" column), fromJson_present h rfl rfl⟩

theorem toString_injective {n n' : Nat} (h : toString n = toString n') : n = n' := by
  rw [Nat.toString_eq_ofList_toDigits, Nat.toString_eq_ofList_toDigits, String.ofList_inj] at h
  have hvalue := congrArg (fun digits => Nat.ofDigitChars 10 digits 0) h
  simpa [Nat.ofDigitChars_toDigits] using hvalue

theorem TellsVerdict.status [Diagnostics] {line : String} {verdict : Verdict} (h : TellsVerdict line verdict) :
    fromJson line "status" = .ok (.extracted verdict.status) := by
  cases verdict
  all_goals exact h.1

/-- A verdict is known from what is told about it. -/
theorem TellsVerdict.unique [Diagnostics] {line : String} {verdict verdict' : Verdict} (h : TellsVerdict line verdict)
    (h' : TellsVerdict line verdict') : verdict = verdict' := by
  have hstatus : verdict.status = verdict'.status := by
    have heq := h.status.symm.trans h'.status
    simpa using heq
  cases verdict with
  | valid =>
      cases verdict' with
      | valid => rfl
      | invalid | skipped => exact absurd hstatus (by simp [Verdict.status])
  | skipped =>
      cases verdict' with
      | skipped => rfl
      | valid | invalid => exact absurd hstatus (by simp [Verdict.status])
  | invalid row column message =>
      cases verdict' with
      | valid | skipped => exact absurd hstatus (by simp [Verdict.status])
      | invalid row' column' message' =>
          obtain ⟨-, hrow, hcolumn, hmessage⟩ := h
          obtain ⟨-, hrow', hcolumn', hmessage'⟩ := h'
          rw [hrow] at hrow'
          rw [hcolumn] at hcolumn'
          rw [hmessage] at hmessage'
          simp only [Except.ok.injEq, Extraction.extracted.injEq] at hrow' hcolumn' hmessage'
          rw [toString_injective hrow', toString_injective hcolumn', hmessage']

/-! ## The end of a line -/

/-- Texts with commas between them hold a control character only if one of the texts does. -/
theorem visible_intercalate {texts : List (List Char)} (h : ∀ text ∈ texts, ∀ c ∈ text, ¬ c.toNat < 0x20) :
    ∀ c ∈ List.intercalate [','] texts, ¬ c.toNat < 0x20 := by
  induction texts with
  | nil => simp
  | cons text texts ih =>
      obtain ⟨htext, htexts⟩ := List.forall_mem_cons.mp h
      cases texts with
      | nil => simpa using htext
      | cons next texts =>
          intro c hc
          rw [List.intercalate_cons_cons, List.append_assoc, List.mem_append, List.mem_append,
            List.mem_singleton] at hc
          obtain hc | rfl | hc := hc
          · exact htext c hc
          · decide
          · exact ih htexts c hc

theorem visible_stringMember {key value : String} {c : Char} (h : c ∈ stringMember key value) :
    ¬ c.toNat < 0x20 := by
  rw [stringMember, List.mem_append, List.mem_cons] at h
  obtain h | rfl | h := h
  · exact Json.visible_quoted h
  · decide
  · exact Json.visible_quoted h

theorem visible_numberMember {key : String} {value : Nat} {c : Char} (h : c ∈ numberMember key value) :
    ¬ c.toNat < 0x20 := by
  rw [numberMember, List.mem_append, List.mem_cons] at h
  obtain h | rfl | h := h
  · exact Json.visible_quoted h
  · decide
  · exact Json.visible_decimal h

theorem visible_verdictMembers (verdict : Verdict) :
    ∀ text ∈ verdictMembers verdict, ∀ c ∈ text, ¬ c.toNat < 0x20 := by
  cases verdict with
  | valid => exact List.forall_mem_singleton.mpr fun c => visible_stringMember
  | skipped => exact List.forall_mem_singleton.mpr fun c => visible_stringMember
  | invalid line column message =>
      simp only [verdictMembers, List.forall_mem_cons, List.not_mem_nil, false_implies, implies_true, and_true]
      exact ⟨fun c => visible_stringMember, fun c => visible_numberMember, fun c => visible_numberMember,
        fun c => visible_stringMember⟩

/-- A line is a text without control characters and a line feed behind it. -/
theorem object_toList (input : String) (verdict : Verdict) :
    ∃ body, (object input verdict).text.toList = body ++ ['\n'] ∧ ∀ c ∈ body, ¬ c.toNat < 0x20 := by
  refine ⟨'\x7b' :: List.intercalate [','] (stringMember "input" input :: verdictMembers verdict) ++ ['\x7d'],
    by simp [object], ?_⟩
  intro c hc
  rw [List.cons_append, List.mem_cons, List.mem_append, List.mem_singleton] at hc
  obtain rfl | hc | rfl := hc
  · decide
  · exact visible_intercalate
      (List.forall_mem_cons.mpr ⟨fun c => visible_stringMember, visible_verdictMembers verdict⟩) c hc
  · decide

/-- **Status lines are read back.** A line ends with its only line feed; the name of the input and the verdict are
    extracted from it as they were, whatever characters are in them; and so no other input and no other verdict has
    the same line. -/
theorem object_read_back [Diagnostics] (input : String) {verdict : Verdict} (h : verdict.FitsWords) :
    let line := (statusLine .json input verdict).text
    (∃ body, line.toList = body ++ ['\n'] ∧ '\n' ∉ body) ∧
      fromJson line "input" = .ok (.extracted input) ∧ TellsVerdict line verdict ∧
      ∀ (input' : String) (verdict' : Verdict), verdict'.FitsWords →
        (statusLine .json input' verdict').text = line → input' = input ∧ verdict' = verdict := by
  have hinput : ∀ (input : String) {verdict : Verdict}, verdict.FitsWords →
      fromJson (object input verdict).text "input" = .ok (.extracted input) := by
    intro input verdict h
    exact fromJson_present h rfl rfl
  refine ⟨?_, hinput input h, tellsVerdict_object input h, ?_⟩
  · obtain ⟨body, htext, hvisible⟩ := object_toList input verdict
    exact ⟨body, htext, fun hmem => hvisible '\n' hmem (by decide)⟩
  · intro input' verdict' h' hline
    have hline' : (object input' verdict').text = (object input verdict).text := hline
    have hsame := hinput input' h'
    have htells := tellsVerdict_object input' h'
    rw [hline'] at hsame htells
    rw [hinput input h] at hsame
    refine ⟨?_, htells.unique (tellsVerdict_object input h)⟩
    simpa using hsame.symm

/-- A name that looks like an object, and a fault in the last place that words can give. -/
theorem object_read_back_lastPlace :
    let input := "\x7b\"input\":\"a\"\x7d\n\x00"
    let verdict := Verdict.invalid (UInt64.size - 1) 0 "\"é\"\t😀"
    let line := (statusLine .json input verdict).text
    verdict.FitsWords ∧ fromJson line "input" = .ok (.extracted input) ∧ TellsVerdict line verdict := by
  intro input verdict line
  have hfits : verdict.FitsWords := ⟨by decide, by decide⟩
  obtain ⟨-, hinput, htells, -⟩ := object_read_back input hfits
  exact ⟨hfits, hinput, htells⟩

end Esql.Report
