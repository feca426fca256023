import Esql.Extraction
import Esql.Proofs.Document.PathSpellings

/-!
# `Proofs.Document.FirstMembers` — the first of repeated members counts

An object may have several members with one key, at any depth. What is extracted from a document is found by following
the first of them: a field names the first member of the document with that key, or else the value to which its path
leads, always by the first member of each key and never by a later one, even where the first leads nowhere (`Names`).

So an object is known as soon as it is known what the first value of each key is. `folded` keeps just this: it puts
the members into a map one after another, and a key that is there already keeps its value. Documents that differ in
the later repetitions of keys or in the order of members with other keys have the same map (`Alike.folded_eq`), and
what is extracted from a document is what its map gives (`extractFrom_folded`).

## Contents
- `First`, `Leads` and `Names`: what a field names in the members of a document as they are in order.
- `folded`, a document as a map, and what is found in it.
- `Alike`, documents that have the same map.
- Extractions.
-/

namespace Esql.Document.Json

variable {members : List (String × Json)} {key field : String} {value document : Json}

/-! ## First members -/

/-- The first member with a key: those in front of it have other keys. -/
def First (members : List (String × Json)) (key : String) (value : Json) : Prop :=
  ∃ before after, members = before ++ (key, value) :: after ∧ ∀ member ∈ before, member.1 ≠ key

/-- Where a row of keys leads: from one object into another, each time by the first member with the key. -/
inductive Leads : Json → List String → Json → Prop
  | here {value : Json} : Leads value [] value
  | member {members : List (String × Json)} {key : String} {keys : List String} {inner value : Json} :
      First members key inner → Leads inner keys value → Leads (object members) (key :: keys) value

/-- What a field names in a document, which must be an object: its first member with this key or, where it has none,
    the value to which the path leads that the field spells. -/
inductive Names (field : String) : Json → Json → Prop
  | key {members : List (String × Json)} {value : Json} : First members field value → Names field (object members) value
  | path {members : List (String × Json)} {path : List String} {value : Json} :
      (∀ member ∈ members, member.1 ≠ field) → splitDotted field = some path → Leads (object members) path value →
      Names field (object members) value

theorem get?_object_eq_some_iff : get? (object members) key = some value ↔ First members key value := by
  unfold get?
  rw [Option.map_eq_some_iff]
  constructor
  · rintro ⟨⟨name, _⟩, hfind, rfl⟩
    obtain ⟨hname, before, after, hmembers, hbefore⟩ := List.find?_eq_some_iff_append.mp hfind
    obtain rfl : name = key := by simpa using hname
    exact ⟨before, after, hmembers, fun member hmember => by simpa using hbefore member hmember⟩
  · rintro ⟨before, after, hmembers, hbefore⟩
    refine ⟨(key, value), List.find?_eq_some_iff_append.mpr ⟨by simp, before, after, hmembers, ?_⟩, rfl⟩
    intro member hmember
    simpa using hbefore member hmember

theorem get?_object_eq_none_iff : get? (object members) key = none ↔ ∀ member ∈ members, member.1 ≠ key := by
  unfold get?
  rw [Option.map_eq_none_iff, List.find?_eq_none]
  simp

/-- Only objects have members. -/
theorem exists_members (h : get? document key = some value) : ∃ members, document = object members := by
  cases document with
  | object members => exact ⟨members, rfl⟩
  | null | boolean | number | string | array => cases h

theorem foldlM_get?_eq_some_iff {path : List String} :
    path.foldlM get? document = some value ↔ Leads document path value := by
  induction path generalizing document with
  | nil =>
      constructor
      · intro h
        obtain rfl := Option.some.inj h
        exact .here
      · intro h
        cases h
        rfl
  | cons key path ih =>
      rw [List.foldlM_cons]
      constructor
      · intro h
        obtain ⟨inner, hget, hrest⟩ := Option.bind_eq_some_iff.mp h
        obtain ⟨members, rfl⟩ := exists_members hget
        exact .member (get?_object_eq_some_iff.mp hget) (ih.mp hrest)
      · intro h
        cases h with
        | member hfirst hrest =>
            exact Option.bind_eq_some_iff.mpr ⟨_, get?_object_eq_some_iff.mpr hfirst, ih.mpr hrest⟩

theorem lookup_eq_of_get? (h : get? document field = some value) : lookup get? document field = some value := by
  unfold lookup
  rw [h]

theorem lookup_eq_of_none (h : get? document field = none) :
    lookup get? document field = (splitDotted field).bind fun path => path.foldlM get? document := by
  unfold lookup
  rw [h]
  cases splitDotted field <;> rfl

/-- A lookup finds what the field names. -/
theorem lookup_eq_some_iff : lookup get? document field = some value ↔ Names field document value := by
  cases hkey : get? document field with
  | some first =>
      obtain ⟨members, rfl⟩ := exists_members hkey
      have hfirst := get?_object_eq_some_iff.mp hkey
      rw [lookup_eq_of_get? hkey]
      constructor
      · intro h
        obtain rfl := Option.some.inj h
        exact .key hfirst
      · intro h
        cases h with
        | key hvalue => rw [← hkey, get?_object_eq_some_iff.mpr hvalue]
        | path hnone _ _ =>
            rw [get?_object_eq_none_iff.mpr hnone] at hkey
            cases hkey
  | none =>
      rw [lookup_eq_of_none hkey, Option.bind_eq_some_iff]
      constructor
      · rintro ⟨path, hpath, hfold⟩
        have hleads := foldlM_get?_eq_some_iff.mp hfold
        cases hleads with
        | here => exact absurd rfl ((splitDotted_eq_some_iff field []).mp hpath).1
        | member hfirst hrest => exact .path (get?_object_eq_none_iff.mp hkey) hpath (.member hfirst hrest)
      · intro h
        cases h with
        | key hvalue =>
            rw [get?_object_eq_some_iff.mpr hvalue] at hkey
            cases hkey
        | path _ hpath hleads => exact ⟨_, hpath, foldlM_get?_eq_some_iff.mpr hleads⟩

/-! ## Maps -/

/-- Add a member to a map with its entries in the order of their keys, unless the key is there already. -/
def orInsert (member : String × Json) : List (String × Json) → List (String × Json)
  | [] => [member]
  | entry :: entries =>
    if entry.1 < member.1 then entry :: orInsert member entries
    else if entry.1 = member.1 then entry :: entries
    else member :: entry :: entries

mutual

/-- A value in which every object is the map that its members make, one after another. -/
def folded : Json → Json
  | array items => array (foldedItems items)
  | object members => object (foldedMembers [] members)
  | value => value

/-- The items of an array, each folded. -/
def foldedItems : List Json → List Json
  | [] => []
  | item :: items => item.folded :: foldedItems items

/-- Members with folded values, added to a map one after another. -/
def foldedMembers (entries : List (String × Json)) : List (String × Json) → List (String × Json)
  | [] => entries
  | (key, value) :: members => foldedMembers (orInsert (key, value.folded) entries) members

end

/-- What stands in a map under a key. -/
def under? (entries : List (String × Json)) (key : String) : Option Json :=
  (entries.find? fun entry => entry.1 == key).map (·.2)

theorem under?_cons (entry : String × Json) (entries : List (String × Json)) (key : String) :
    under? (entry :: entries) key = if entry.1 = key then some entry.2 else under? entries key := by
  unfold under?
  by_cases h : entry.1 = key
  · rw [if_pos h, List.find?_cons_of_pos (by simpa using h), Option.map_some]
  · rw [if_neg h, List.find?_cons_of_neg (by simpa using h)]

/-- The entries of a map are in the order of their keys. -/
def Ordered (entries : List (String × Json)) : Prop := entries.Pairwise fun a b => a.1 < b.1

theorem mem_orInsert {member e : String × Json} {entries : List (String × Json)} (h : e ∈ orInsert member entries) :
    e = member ∨ e ∈ entries := by
  fun_induction orInsert member entries <;> grind

theorem Ordered.orInsert {entries : List (String × Json)} (h : Ordered entries) (member : String × Json) :
    Ordered (orInsert member entries) := by
  unfold Ordered at h ⊢
  induction entries with
  | nil => exact List.pairwise_singleton _ _
  | cons entry entries ih =>
      obtain ⟨hhead, htail⟩ := List.pairwise_cons.mp h
      unfold Json.orInsert
      split
      · rename_i hless
        refine List.pairwise_cons.mpr ⟨fun e he => ?_, ih htail⟩
        obtain rfl | he := mem_orInsert he
        · exact hless
        · exact hhead e he
      · split
        · exact h
        · rename_i hnot hne
          have hless : member.1 < entry.1 := by grind
          refine List.pairwise_cons.mpr ⟨fun e he => ?_, h⟩
          obtain rfl | he := List.mem_cons.mp he
          · exact hless
          · exact String.lt_trans hless (hhead e he)

/-- A key that is there keeps its value, and no other key is touched. -/
theorem under?_orInsert {entries : List (String × Json)} (h : Ordered entries) (member : String × Json)
    (key : String) :
    under? (orInsert member entries) key =
      (under? entries key).or (if member.1 = key then some member.2 else none) := by
  induction entries with
  | nil =>
      show under? (member :: []) key = _
      rw [under?_cons]
      rfl
  | cons entry entries ih =>
      obtain ⟨hhead, htail⟩ := List.pairwise_cons.mp h
      rw [under?_cons]
      unfold orInsert
      split
      · rw [under?_cons, ih htail]
        split <;> rfl
      · split
        · rename_i heq
          rw [under?_cons]
          split
          · rfl
          · rename_i hne
            rw [if_neg fun hmember => hne (heq.trans hmember), Option.or_none]
        · rename_i hnot hne
          have hless : member.1 < entry.1 := by grind
          rw [under?_cons, under?_cons]
          by_cases hkey : member.1 = key
          · -- The member comes before all entries, so none of them has its key.
            have habsent : under? entries key = none := by
              unfold under?
              rw [Option.map_eq_none_iff, List.find?_eq_none]
              intro e he hbeq
              have hlater := String.lt_trans hless (hhead e he)
              rw [hkey, beq_iff_eq.mp hbeq] at hlater
              exact String.lt_irrefl _ hlater
            have hentry : entry.1 ≠ key := fun heq => hne (heq.trans hkey.symm)
            simp [hkey, hentry, habsent]
          · simp [hkey]

/-- What the members of an object put into a map: for each key the first of its values, folded. -/
theorem under?_foldedMembers {entries : List (String × Json)} (h : Ordered entries)
    (members : List (String × Json)) (key : String) :
    under? (foldedMembers entries members) key = (under? entries key).or ((get? (object members) key).map folded) := by
  induction members generalizing entries with
  | nil =>
      rw [foldedMembers]
      simp [get?]
  | cons member members ih =>
      obtain ⟨name, value⟩ := member
      rw [foldedMembers, ih (h.orInsert _), under?_orInsert h, Option.or_assoc]
      congr 1
      by_cases hname : name = key
      · simp [get?, hname]
      · simp [get?, hname]

/-- What is under a key of a folded value is what was under it, folded. -/
theorem get?_folded (value : Json) (key : String) : get? value.folded key = (get? value key).map folded := by
  cases value with
  | object members =>
      rw [folded]
      exact under?_foldedMembers .nil members key
  | null | boolean | number | string | array => rfl

theorem foldlM_get?_folded (path : List String) (value : Json) :
    path.foldlM get? value.folded = (path.foldlM get? value).map folded := by
  induction path generalizing value with
  | nil => rfl
  | cons key path ih =>
      rw [List.foldlM_cons, List.foldlM_cons, get?_folded]
      cases hget : get? value key with
      | none => rfl
      | some inner => exact ih inner

theorem lookup_folded (document : Json) (field : String) :
    lookup get? document.folded field = (lookup get? document field).map folded := by
  cases hkey : get? document field with
  | some value =>
      have hfolded : get? document.folded field = some value.folded := by rw [get?_folded, hkey, Option.map_some]
      rw [lookup_eq_of_get? hkey, lookup_eq_of_get? hfolded, Option.map_some]
  | none =>
      have hfolded : get? document.folded field = none := by rw [get?_folded, hkey, Option.map_none]
      rw [lookup_eq_of_none hkey, lookup_eq_of_none hfolded]
      cases splitDotted field with
      | none => rfl
      | some path => exact foldlM_get?_folded path document

/-! ## Documents with the same map -/

/-- Values that differ, at any depth, only in the later repetitions of keys and in the order of members with other
    keys. -/
inductive Alike : Json → Json → Prop
  | refl (value : Json) : Alike value value
  | symm {value value' : Json} : Alike value value' → Alike value' value
  | trans {value value' value'' : Json} : Alike value value' → Alike value' value'' → Alike value value''
  /-- A later repetition of a key is left out. -/
  | repetition {before between after : List (String × Json)} {key : String} {first later : Json} :
      Alike (object (before ++ (key, first) :: (between ++ (key, later) :: after)))
        (object (before ++ (key, first) :: (between ++ after)))
  /-- Two neighbours with different keys change places. -/
  | swap {before after : List (String × Json)} {a b : String × Json} :
      a.1 ≠ b.1 → Alike (object (before ++ a :: b :: after)) (object (before ++ b :: a :: after))
  /-- A change inside the value of a member. -/
  | member {before after : List (String × Json)} {key : String} {value value' : Json} :
      Alike value value' → Alike (object (before ++ (key, value) :: after)) (object (before ++ (key, value') :: after))
  /-- A change inside an item of an array. -/
  | item {before after : List Json} {value value' : Json} :
      Alike value value' → Alike (array (before ++ value :: after)) (array (before ++ value' :: after))

theorem foldedItems_append (items items' : List Json) :
    foldedItems (items ++ items') = foldedItems items ++ foldedItems items' := by
  induction items with
  | nil => rfl
  | cons item items ih => rw [List.cons_append, foldedItems, foldedItems, ih, List.cons_append]

theorem foldedMembers_append (entries members members' : List (String × Json)) :
    foldedMembers entries (members ++ members') = foldedMembers (foldedMembers entries members) members' := by
  induction members generalizing entries with
  | nil => rw [List.nil_append, foldedMembers]
  | cons member members ih =>
      obtain ⟨key, value⟩ := member
      rw [List.cons_append, foldedMembers, foldedMembers, ih]

theorem orInsert_comm {a b : String × Json} (h : a.1 ≠ b.1) (entries : List (String × Json)) :
    orInsert a (orInsert b entries) = orInsert b (orInsert a entries) := by
  induction entries with
  | nil => grind [orInsert]
  | cons entry entries ih => grind [orInsert]

theorem orInsert_again (key : String) (first later : Json) (entries : List (String × Json)) :
    orInsert (key, later) (orInsert (key, first) entries) = orInsert (key, first) entries := by
  induction entries with
  | nil => grind [orInsert]
  | cons entry entries ih => grind [orInsert]

/-- A key is in a map when nothing more can be put under it. -/
def Holds (entries : List (String × Json)) (key : String) : Prop := ∀ value, orInsert (key, value) entries = entries

/-- A key that is in a map stays there. -/
theorem Holds.orInsert {entries : List (String × Json)} (h : Holds entries key) (member : String × Json) :
    Holds (orInsert member entries) key := by
  intro value
  by_cases hkey : member.1 = key
  · subst hkey
    have hsame : Json.orInsert member entries = entries := h member.2
    rw [hsame, h value]
  · rw [orInsert_comm (Ne.symm hkey), h value]

theorem Holds.foldedMembers {entries : List (String × Json)} (h : Holds entries key)
    (members : List (String × Json)) : Holds (foldedMembers entries members) key := by
  induction members generalizing entries with
  | nil =>
      rw [Json.foldedMembers]
      exact h
  | cons member members ih =>
      obtain ⟨name, value⟩ := member
      rw [Json.foldedMembers]
      exact ih (h.orInsert _)

/-- Values that are alike have the same map. -/
theorem Alike.folded_eq {value value' : Json} (h : Alike value value') : value.folded = value'.folded := by
  induction h with
  | refl value => rfl
  | symm _ ih => exact ih.symm
  | trans _ _ ih ih' => exact ih.trans ih'
  | @repetition before between after key first later =>
      rw [folded, folded, foldedMembers_append, foldedMembers_append, foldedMembers, foldedMembers,
        foldedMembers_append, foldedMembers_append, foldedMembers]
      have hholds : Holds (orInsert (key, first.folded) (foldedMembers [] before)) key :=
        fun value => orInsert_again key first.folded value _
      rw [hholds.foldedMembers between later.folded]
  | @swap before after a b hne =>
      obtain ⟨key, value⟩ := a
      obtain ⟨key', value'⟩ := b
      have hcomm := orInsert_comm (a := (key, value.folded)) (b := (key', value'.folded)) hne (foldedMembers [] before)
      rw [folded, folded, foldedMembers_append, foldedMembers_append, foldedMembers, foldedMembers, foldedMembers,
        foldedMembers, hcomm]
  | member _ ih => rw [folded, folded, foldedMembers_append, foldedMembers_append, foldedMembers, foldedMembers, ih]
  | item _ ih => rw [folded, folded, foldedItems_append, foldedItems_append, foldedItems, foldedItems, ih]

end Esql.Document.Json

namespace Esql.Extraction

open Esql.Document
open Esql.Document.Json (Names Alike)

variable {content : String} {document : Json}

/-! ## Extractions -/

/-- What is extracted for a field that names a value of this kind, or none. -/
inductive Gives (field : String) (document : Json) : Except ExtractionError Extraction → Prop
  | string {s : String} : Names field document (.string s) → Gives field document (.ok (extracted s))
  | number {n : Json.Number} :
      Names field document (.number n) → Gives field document (.ok (extracted (String.ofList n.text)))
  | boolean {b : Bool} :
      Names field document (.boolean b) → Gives field document (.ok (extracted (if b then "true" else "false")))
  | null : Names field document .null → Gives field document (.error (.nullField field .json))
  | array {items : List Json} :
      Names field document (.array items) → Gives field document (.error (.notScalar field))
  | object {members : List (String × Json)} :
      Names field document (.object members) → Gives field document (.error (.notScalar field))
  | missing : (∀ value, ¬ Names field document value) →
      Gives field document (.error (.fieldNotFound field .json))

/-- What is extracted from a document for a field. -/
def extractFrom (document : Json) (field : String) : Except ExtractionError Extraction :=
  match lookup Json.get? document field with
  | none => .error (.fieldNotFound field .json)
  | some value => (scalarText field value).map extracted

theorem fromJson_of_read [Diagnostics] (hread : Json.read? content = some document) (field : String) :
    fromJson content field = extractFrom document field := by
  unfold fromJson
  rw [hread]
  rfl

theorem extractFrom_eq_iff {field : String} {result : Except ExtractionError Extraction} :
    extractFrom document field = result ↔ Gives field document result := by
  unfold extractFrom
  cases hfound : lookup Json.get? document field with
  | none =>
      have hnone : ∀ value, ¬ Names field document value := by
        intro value hnames
        rw [Json.lookup_eq_some_iff.mpr hnames] at hfound
        cases hfound
      constructor
      · rintro rfl
        exact .missing hnone
      · intro h
        cases h with
        | missing => rfl
        | string hnames | number hnames | boolean hnames | null hnames | array hnames | object hnames =>
            exact absurd hnames (hnone _)
  | some value =>
      have hnames := Json.lookup_eq_some_iff.mp hfound
      -- A field names one value only.
      have hunique : ∀ other, Names field document other → other = value := by
        intro other hother
        have heq := hfound.symm.trans (Json.lookup_eq_some_iff.mpr hother)
        exact (Option.some.inj heq).symm
      constructor
      · rintro rfl
        cases value with
        | string => exact .string hnames
        | number => exact .number hnames
        | boolean => exact .boolean hnames
        | null => exact .null hnames
        | array => exact .array hnames
        | object => exact .object hnames
      · intro h
        cases h with
        | missing hnone => exact absurd hnames (hnone _)
        | string hother | number hother | boolean hother | null hother | array hother | object hother =>
            obtain rfl := hunique _ hother
            rfl

/-- A folded value has the text that it had. -/
theorem scalarText_folded (field : String) (value : Json) : scalarText field value.folded = scalarText field value := by
  cases value <;> rfl

/-- What is extracted from a document is what its map gives. -/
theorem extractFrom_folded (document : Json) (field : String) :
    extractFrom document.folded field = extractFrom document field := by
  unfold extractFrom
  rw [Json.lookup_folded]
  cases lookup Json.get? document field with
  | none => rfl
  | some value => exact congrArg (Except.map extracted) (scalarText_folded field value)

/-- **The first of repeated members counts, at every level.** What is extracted for a field is what the value gives
    that the field names by first members alone; it is also what the map gives into which the members were put one
    after another; and documents that are alike but for later repetitions and the order of other keys, at any
    depth, give the same for every field. -/
theorem first_member_counts [Diagnostics] (hread : Json.read? content = some document) (field : String) :
    (∀ result, fromJson content field = result ↔ Gives field document result) ∧
      fromJson content field = extractFrom document.folded field ∧
      ∀ content' document', Json.read? content' = some document' → Alike document document' →
        fromJson content' field = fromJson content field := by
  rw [fromJson_of_read hread]
  refine ⟨fun result => extractFrom_eq_iff, (extractFrom_folded document field).symm, ?_⟩
  intro content' document' hread' halike
  rw [fromJson_of_read hread', ← extractFrom_folded document', ← halike.folded_eq, extractFrom_folded]

/-- The first object under a key leads nowhere, and the second one, whose key is written with an escape, is not
    tried: without it, and with another member in front, the result is the same. -/
theorem first_member_counts_leadsNowhere :
    let content := "\x7b\"r\":\x7b\"x\":true\x7d,\"\\u0072\":\x7b\"q\":\"FROM a\"\x7d,\"s\":null\x7d"
    let content' := "\x7b\"s\":null,\"r\":\x7b\"x\":true\x7d\x7d"
    ∃ document document', (Json.read? content = some document ∧ Json.read? content' = some document' ∧
        Alike document document') ∧
      fromJson content "r.q" = .error (.fieldNotFound "r.q" .json) ∧
      fromJson content' "r.q" = fromJson content "r.q" := by
  intro content content'
  let first := ("r", Json.object [("x", .boolean true)])
  let later := Json.object [("q", .string "FROM a")]
  have hread : Json.read? content = some (.object [first, ("r", later), ("s", .null)]) := by decide +kernel
  have hread' : Json.read? content' = some (.object [("s", .null), first]) := by decide +kernel
  have hrepetition : Alike (.object [first, ("r", later), ("s", .null)]) (.object [first, ("s", .null)]) :=
    @Alike.repetition [] [] [("s", .null)] "r" (.object [("x", .boolean true)]) later
  have hswap : Alike (.object [first, ("s", .null)]) (.object [("s", .null), first]) :=
    @Alike.swap [] [] first ("s", .null) (by decide)
  obtain ⟨hresult, -, hsame⟩ := first_member_counts hread "r.q"
  refine ⟨_, _, ⟨hread, hread', hrepetition.trans hswap⟩, ?_, hsame content' _ hread' (hrepetition.trans hswap)⟩
  apply (hresult _).mpr
  apply extractFrom_eq_iff.mp
  decide +kernel

end Esql.Extraction
