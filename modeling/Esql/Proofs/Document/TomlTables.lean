import Esql.Document.Toml.Assembly
import Esql.Proofs.Document.TomlDates

/-!
# `Proofs.Document.TomlTables` — tables in the making

A value is sound if its integers fit 64 bits, its dates and times are such as there are, and the entries of its tables
are in the strict order of their keys (`Toml.Sound`). Tables in the making are not in order yet, but no key occurs
twice in one (`Entries.Sound`). This is what every step keeps that puts an assignment or a header into a document, and
what ordering the entries needs to make the order strict: a sound node stands for a sound value
(`Node.Sound.yields`).

## Contents
- `Toml.Sound`, `Node.Sound` and `Entries.Sound`.
- Entries: what is added, replaced and taken out.
- Assignments, headers and sections.
- `sortByKey`, and what nodes stand for.
-/

namespace Esql.Document

/-- A value as it is read: numbers and dates within their bounds, keys in their strict order. -/
inductive Toml.Sound : Toml → Prop
  | string (s : String) : Sound (.string s)
  | integer {n : Int} : Int64.minValue.toInt ≤ n ∧ n ≤ Int64.maxValue.toInt → Sound (.integer n)
  | float (x : Number.Double) : Sound (.float x)
  | boolean (b : Bool) : Sound (.boolean b)
  | dateTime {d : Toml.DateTime} : d.Valid → Sound (.dateTime d)
  | array {items : List Toml} : (∀ item ∈ items, Sound item) → Sound (.array items)
  | table {entries : List (String × Toml)} :
      (entries.Pairwise fun a b => a.1 < b.1) → (∀ entry ∈ entries, Sound entry.2) → Sound (.table entries)

namespace Toml

open Esql.Number

/-! ## Tables in the making -/

/-- No key occurs twice. -/
def Entries.Distinct (entries : Entries) : Prop := (entries.map Prod.fst).Nodup

/-- A node that leads to sound values only, and in which no table has a key twice. -/
inductive Node.Sound : Node → Prop
  | value {v : Toml} : v.Sound → Sound (.value v)
  | array {items : List Node} : (∀ item ∈ items, Sound item) → Sound (.array items)
  | inlineTable {entries : Entries} :
      entries.Distinct → (∀ entry ∈ entries, Sound entry.2) → Sound (.inlineTable entries)
  | table {implied dotted : Bool} {entries : Entries} :
      entries.Distinct → (∀ entry ∈ entries, Sound entry.2) → Sound (.table implied dotted entries)
  | tables {last : Entries} {earlier : List Entries} :
      (∀ entries ∈ last :: earlier, entries.Distinct) →
      (∀ entries ∈ last :: earlier, ∀ entry ∈ entries, Sound entry.2) → Sound (.tables last earlier)

/-- A table in the making whose keys are different and lead to sound nodes. -/
structure Entries.Sound (entries : Entries) : Prop where
  distinct : entries.Distinct
  nodes : ∀ entry ∈ entries, entry.2.Sound

variable {entries inner result : Entries} {key : String} {node : Node}

namespace Entries

theorem get?_eq_none_iff : entries.get? key = none ↔ key ∉ entries.map Prod.fst := by
  unfold get?
  rw [Option.map_eq_none_iff, List.find?_eq_none, List.mem_map]
  constructor
  · rintro h ⟨entry, hentry, rfl⟩
    exact h entry hentry (by simp)
  · intro h entry hentry hkey
    exact h ⟨entry, hentry, by simpa using hkey⟩

theorem mem_of_get? (h : entries.get? key = some node) : (key, node) ∈ entries := by
  obtain ⟨⟨name, _⟩, hfind, rfl⟩ := Option.map_eq_some_iff.mp h
  obtain rfl : name = key := by simpa using List.find?_some hfind
  exact List.mem_of_find?_eq_some hfind

theorem Sound.nil : Sound [] := ⟨List.nodup_nil, fun _ h => absurd h List.not_mem_nil⟩

theorem Sound.get? (h : entries.Sound) (hget : entries.get? key = some node) : node.Sound :=
  h.nodes _ (mem_of_get? hget)

/-- A new key behind all others. -/
theorem Sound.append_one (h : entries.Sound) (habsent : entries.get? key = none) (hnode : node.Sound) :
    Sound (entries ++ [(key, node)]) := by
  have hkey : key ∉ entries.map Prod.fst := get?_eq_none_iff.mp habsent
  refine ⟨?_, ?_⟩
  · show ((entries ++ [(key, node)]).map Prod.fst).Nodup
    rw [List.map_append]
    refine List.nodup_append.mpr ⟨h.distinct, by simp, ?_⟩
    intro name hname other hother heq
    obtain rfl := List.mem_singleton.mp hother
    exact hkey (heq ▸ hname)
  · intro entry hentry
    obtain hold | hnew := List.mem_append.mp hentry
    · exact h.nodes entry hold
    · rw [List.mem_singleton.mp hnew]
      exact hnode

/-- A node in the place of another leaves the keys as they are. -/
theorem Sound.put (h : entries.Sound) (key : String) (hnode : node.Sound) : (entries.put key node).Sound := by
  unfold Entries.put
  split
  · refine ⟨?_, ?_⟩
    · have hkeys : (entries.map fun entry => if entry.1 == key then (key, node) else entry).map Prod.fst =
          entries.map Prod.fst := by
        rw [List.map_map]
        refine List.map_congr_left fun entry _ => ?_
        by_cases hkey : entry.1 = key <;> simp [hkey]
      show List.Nodup _
      rw [hkeys]
      exact h.distinct
    · intro entry hentry
      obtain ⟨old, hold, rfl⟩ := List.mem_map.mp hentry
      split
      · exact hnode
      · exact h.nodes old hold
  · rename_i habsent
    exact h.append_one (get?_eq_none_iff.mpr (by simpa using habsent)) hnode

theorem Sound.erase (h : entries.Sound) (key : String) : (entries.erase key).Sound :=
  ⟨h.distinct.sublist (List.filter_sublist.map _), fun entry hentry => h.nodes entry (List.mem_filter.mp hentry).1⟩

theorem get?_erase (entries : Entries) (key : String) : (entries.erase key).get? key = none := by
  rw [get?_eq_none_iff]
  simp [erase]

end Entries

theorem Entries.Sound.table (h : entries.Sound) (implied dotted : Bool) : (Node.table implied dotted entries).Sound :=
  .table h.distinct h.nodes

theorem Node.Sound.ofTable {implied dotted : Bool} (h : (Node.table implied dotted entries).Sound) :
    entries.Sound := by
  cases h with
  | table hdistinct hnodes => exact ⟨hdistinct, hnodes⟩

theorem Node.Sound.ofTables {last : Entries} {earlier : List Entries} (h : (Node.tables last earlier).Sound) :
    ∀ entries ∈ last :: earlier, entries.Sound := by
  cases h with
  | tables hdistinct hnodes => exact fun entries hmem => ⟨hdistinct entries hmem, hnodes entries hmem⟩

theorem Entries.sound_tables {last : Entries} {earlier : List Entries}
    (h : ∀ entries ∈ last :: earlier, entries.Sound) : (Node.tables last earlier).Sound :=
  .tables (fun entries hmem => (h entries hmem).distinct) fun entries hmem => (h entries hmem).nodes

/-- The last of several tables may become another. -/
theorem Node.Sound.replaceLast {last : Entries} {earlier : List Entries} (h : (Node.tables last earlier).Sound)
    (hresult : result.Sound) : (Node.tables result earlier).Sound := by
  refine Entries.sound_tables fun entries hmem => ?_
  obtain rfl | hearlier := List.mem_cons.mp hmem
  · exact hresult
  · exact h.ofTables entries (.tail _ hearlier)

/-! ## Assignments -/

theorem sound_of_assign? {value : Node} (hvalue : value.Sound) {path : List String} (h : entries.Sound)
    (hassign : assign? value path entries = some result) : result.Sound := by
  -- The parts before the last lead into tables that are part of a sound one, and put a changed table back.
  fun_induction assign? value path entries generalizing result with
  | case3 key entries habsent =>
      obtain rfl := Option.some.inj hassign
      exact h.append_one habsent hvalue
  | case4 key rest entries _ habsent ih =>
      obtain ⟨inner, hinner, rfl⟩ := Option.map_eq_some_iff.mp hassign
      exact h.append_one habsent ((ih .nil hinner).table _ _)
  | case8 key rest entries _ implied dotted inner hget _ ih =>
      obtain ⟨changed, hchanged, rfl⟩ := Option.map_eq_some_iff.mp hassign
      exact h.put key ((ih (h.get? hget).ofTable hchanged).table _ _)
  | case10 key rest entries _ last earlier hget _ ih =>
      obtain ⟨changed, hchanged, rfl⟩ := Option.map_eq_some_iff.mp hassign
      have htables := h.get? hget
      exact h.put key (htables.replaceLast (ih (htables.ofTables last (.head _)) hchanged))
  | case1 | case2 | case5 | case6 | case7 | case9 | case11 => contradiction

theorem sound_of_assignAll? {assignments : List Assignment} (hvalues : ∀ a ∈ assignments, a.value.Sound)
    (h : entries.Sound) (hassign : assignAll? assignments entries = some result) : result.Sound := by
  induction assignments generalizing entries with
  | nil =>
      obtain rfl := Option.some.inj hassign
      exact h
  | cons a assignments ih =>
      unfold assignAll? at hassign
      rw [List.foldlM_cons] at hassign
      obtain ⟨next, hnext, hrest⟩ := Option.bind_eq_some_iff.mp hassign
      exact ih (fun b hb => hvalues b (.tail _ hb)) (sound_of_assign? (hvalues a (.head _)) h hnext) hrest

/-! ## Headers -/

theorem sound_of_within? {change : Entries → Option Entries}
    (hchange : ∀ {entries result : Entries}, entries.Sound → change entries = some result → result.Sound)
    {path : List String} (h : entries.Sound) (hwithin : within? change path entries = some result) :
    result.Sound := by
  fun_induction within? change path entries generalizing result with
  | case1 entries => exact hchange h hwithin
  | case2 key rest entries habsent ih =>
      obtain ⟨inner, hinner, rfl⟩ := Option.map_eq_some_iff.mp hwithin
      exact h.append_one habsent ((ih .nil hinner).table _ _)
  | case6 key rest entries implied dotted inner hget ih =>
      obtain ⟨changed, hchanged, rfl⟩ := Option.map_eq_some_iff.mp hwithin
      exact h.put key ((ih (h.get? hget).ofTable hchanged).table _ _)
  | case7 key rest entries last earlier hget ih =>
      obtain ⟨changed, hchanged, rfl⟩ := Option.map_eq_some_iff.mp hwithin
      have htables := h.get? hget
      exact h.put key (htables.replaceLast (ih (htables.ofTables last (.head _)) hchanged))
  | case3 | case4 | case5 => contradiction

variable {assignments : List Assignment}

theorem sound_of_tableUnder? (hvalues : ∀ a ∈ assignments, a.value.Sound) (h : entries.Sound)
    (htable : tableUnder? key assignments entries = some result) : result.Sound := by
  -- The table is filled from what longer headers have put into it, if they have.
  have hfill {inner : Entries} (hinner : inner.Sound) (hfilled : (assignAll? assignments inner).bind (fun filled =>
      some (entries.erase key ++ [(key, .table false false filled)])) = some result) : result.Sound := by
    obtain ⟨filled, hassign, hresult⟩ := Option.bind_eq_some_iff.mp hfilled
    obtain rfl := Option.some.inj hresult
    exact (h.erase key).append_one (Entries.get?_erase entries key)
      ((sound_of_assignAll? hvalues hinner hassign).table _ _)
  unfold tableUnder? at htable
  dsimp only at htable
  split at htable
  · exact hfill .nil htable
  · rename_i hget
    exact hfill (h.get? hget).ofTable htable
  · contradiction

theorem sound_of_tableAmong? (hvalues : ∀ a ∈ assignments, a.value.Sound) (h : entries.Sound)
    (htable : tableAmong? key assignments entries = some result) : result.Sound := by
  have hfill {earlier : List Entries} (hearlier : ∀ entries ∈ earlier, entries.Sound)
      (hfilled : (assignAll? assignments []).bind (fun last => some (entries.put key (.tables last earlier))) =
        some result) : result.Sound := by
    obtain ⟨last, hassign, hresult⟩ := Option.bind_eq_some_iff.mp hfilled
    obtain rfl := Option.some.inj hresult
    refine h.put key (Entries.sound_tables fun entries hmem => ?_)
    obtain rfl | hmem := List.mem_cons.mp hmem
    · exact sound_of_assignAll? hvalues .nil hassign
    · exact hearlier entries hmem
  unfold tableAmong? at htable
  dsimp only at htable
  split at htable
  · exact hfill (fun _ hmem => absurd hmem List.not_mem_nil) htable
  · rename_i hget
    exact hfill (h.get? hget).ofTables htable
  · contradiction

theorem sound_of_section? {s : Section} (hvalues : ∀ a ∈ s.assignments, a.value.Sound) (h : entries.Sound)
    (hsection : section? entries s = some result) : result.Sound := by
  unfold section? at hsection
  split at hsection
  · contradiction
  · refine sound_of_within? (fun hentries hchange => ?_) h hsection
    split at hchange
    · exact sound_of_tableAmong? hvalues hentries hchange
    · exact sound_of_tableUnder? hvalues hentries hchange

theorem sound_of_sections {later : List Section} (hvalues : ∀ s ∈ later, ∀ a ∈ s.assignments, a.value.Sound)
    (h : entries.Sound) (hlater : later.foldlM section? entries = some result) : result.Sound := by
  induction later generalizing entries with
  | nil =>
      obtain rfl := Option.some.inj hlater
      exact h
  | cons s later ih =>
      rw [List.foldlM_cons] at hlater
      obtain ⟨next, hnext, hrest⟩ := Option.bind_eq_some_iff.mp hlater
      exact ih (fun t ht => hvalues t (.tail _ ht)) (sound_of_section? (hvalues s (.head _)) h hnext) hrest

/-! ## The order of keys -/

section Order

variable {entry other : String × Toml} {es : List (String × Toml)}

theorem mem_insertByKey : other ∈ insertByKey entry es ↔ other = entry ∨ other ∈ es := by
  fun_induction insertByKey entry es with
  | case1 => simp
  | case2 first es hless ih =>
      rw [List.mem_cons, ih, List.mem_cons]
      exact or_left_comm
  | case3 => exact List.mem_cons

theorem mem_sortByKey : other ∈ sortByKey es ↔ other ∈ es := by
  unfold sortByKey
  induction es with
  | nil => rfl
  | cons entry es ih => rw [List.foldr_cons, mem_insertByKey, ih, List.mem_cons]

theorem pairwise_insertByKey (h : es.Pairwise fun a b => a.1 < b.1) (hkey : ∀ e ∈ es, e.1 ≠ entry.1) :
    (insertByKey entry es).Pairwise fun a b => a.1 < b.1 := by
  induction es with
  | nil => exact List.pairwise_singleton _ _
  | cons first es ih =>
      obtain ⟨hfirst, hrest⟩ := List.pairwise_cons.mp h
      unfold insertByKey
      split
      · rename_i hless
        refine List.pairwise_cons.mpr ⟨fun e he => ?_, ih hrest fun e he => hkey e (.tail _ he)⟩
        obtain rfl | he := mem_insertByKey.mp he
        · exact hless
        · exact hfirst e he
      · rename_i hnot
        -- The order is total, and the two keys are different.
        have hne : first.1 ≠ entry.1 := hkey first (.head _)
        have hless : entry.1 < first.1 := by grind
        refine List.pairwise_cons.mpr ⟨fun e he => ?_, h⟩
        obtain rfl | he := List.mem_cons.mp he
        · exact hless
        · exact String.lt_trans hless (hfirst e he)

/-- Entries with different keys are brought into their strict order. -/
theorem pairwise_sortByKey (h : (es.map Prod.fst).Nodup) : (sortByKey es).Pairwise fun a b => a.1 < b.1 := by
  induction es with
  | nil => exact .nil
  | cons entry es ih =>
      obtain ⟨hkey, hrest⟩ := List.nodup_cons.mp h
      refine pairwise_insertByKey (ih hrest) fun e he heq => hkey ?_
      rw [← heq]
      exact List.mem_map_of_mem (mem_sortByKey.mp he)

theorem sortByKey_eq_self (h : es.Pairwise fun a b => a.1 < b.1) : sortByKey es = es := by
  induction es with
  | nil => rfl
  | cons entry es ih =>
      obtain ⟨hfirst, hrest⟩ := List.pairwise_cons.mp h
      show insertByKey entry (sortByKey es) = entry :: es
      rw [ih hrest]
      cases es with
      | nil => rfl
      | cons next es =>
          have hnot : ¬ next.1 < entry.1 := fun hless =>
            String.lt_irrefl _ (String.lt_trans hless (hfirst next (.head _)))
          rw [insertByKey, if_neg hnot]

end Order

/-! ## What nodes stand for -/

theorem keys_of_entryValues? {es : List (String × Toml)} (h : entryValues? entries = some es) :
    es.map Prod.fst = entries.map Prod.fst := by
  induction entries generalizing es with
  | nil =>
      obtain rfl := Option.some.inj h
      rfl
  | cons entry entries ih =>
      unfold entryValues? at h
      obtain ⟨value, -, h⟩ := Option.bind_eq_some_iff.mp h
      obtain ⟨others, hothers, h⟩ := Option.bind_eq_some_iff.mp h
      obtain rfl := Option.some.inj h
      rw [List.map_cons, List.map_cons, ih hothers]

/-- Where the first key does not make a table stand for a date or time, all of its entries are asked. -/
theorem tableValue?_eq (h : ∀ entry ∈ entries.head?, entry.1 ≠ dateTimeKey) :
    tableValue? entries = (entryValues? entries).map fun es => table (sortByKey es) := by
  cases entries with
  | nil => rfl
  | cons entry entries =>
      obtain ⟨key, node⟩ := entry
      have hkey : key ≠ dateTimeKey := h (key, node) rfl
      rw [tableValue?, entryValues?, if_neg hkey]
      cases node.toValue? with
      | none => rfl
      | some value => cases entryValues? entries <;> rfl

/-- What is known of a node before it is known that it is sound: whatever it stands for is. -/
def Node.Yields (node : Node) : Prop := ∀ v, node.toValue? = some v → v.Sound

theorem sound_of_values? {items : List Node} {vs : List Toml} (hitems : ∀ item ∈ items, item.Yields)
    (h : values? items = some vs) : ∀ v ∈ vs, v.Sound := by
  induction items generalizing vs with
  | nil =>
      obtain rfl := Option.some.inj h
      exact fun _ hv => absurd hv List.not_mem_nil
  | cons item items ih =>
      unfold values? at h
      obtain ⟨value, hvalue, h⟩ := Option.bind_eq_some_iff.mp h
      obtain ⟨others, hothers, h⟩ := Option.bind_eq_some_iff.mp h
      obtain rfl := Option.some.inj h
      intro v hv
      obtain rfl | hv := List.mem_cons.mp hv
      · exact hitems item (.head _) v hvalue
      · exact ih (fun item hitem => hitems item (.tail _ hitem)) hothers v hv

theorem sound_of_entryValues? {es : List (String × Toml)} (hnodes : ∀ entry ∈ entries, entry.2.Yields)
    (h : entryValues? entries = some es) : ∀ e ∈ es, e.2.Sound := by
  induction entries generalizing es with
  | nil =>
      obtain rfl := Option.some.inj h
      exact fun _ he => absurd he List.not_mem_nil
  | cons entry entries ih =>
      unfold entryValues? at h
      obtain ⟨value, hvalue, h⟩ := Option.bind_eq_some_iff.mp h
      obtain ⟨others, hothers, h⟩ := Option.bind_eq_some_iff.mp h
      obtain rfl := Option.some.inj h
      intro e he
      obtain rfl | he := List.mem_cons.mp he
      · exact hnodes entry (.head _) value hvalue
      · exact ih (fun entry hentry => hnodes entry (.tail _ hentry)) hothers e he

/-- The entries of a table with different keys, in their order. -/
theorem sound_of_sorted {es : List (String × Toml)} (hdistinct : entries.Distinct)
    (hnodes : ∀ entry ∈ entries, entry.2.Yields) (h : entryValues? entries = some es) :
    (table (sortByKey es)).Sound := by
  have hkeys : (es.map Prod.fst).Nodup := by rw [keys_of_entryValues? h]; exact hdistinct
  exact .table (pairwise_sortByKey hkeys) fun e he => sound_of_entryValues? hnodes h e (mem_sortByKey.mp he)

theorem sound_of_dateTime? {v : Toml} (h : node.dateTime? = some v) : v.Sound := by
  unfold Node.dateTime? at h
  split at h
  · obtain ⟨d, hd, rfl⟩ := Option.map_eq_some_iff.mp h
    exact .dateTime (valid_of_dateTimeOfString? hd)
  · contradiction

theorem sound_of_tableValue? {v : Toml} (hdistinct : entries.Distinct) (hnodes : ∀ entry ∈ entries, entry.2.Yields)
    (h : tableValue? entries = some v) : v.Sound := by
  by_cases hmarked : ∀ entry ∈ entries.head?, entry.1 ≠ dateTimeKey
  · rw [tableValue?_eq hmarked] at h
    obtain ⟨es, hes, rfl⟩ := Option.map_eq_some_iff.mp h
    exact sound_of_sorted hdistinct hnodes hes
  · cases entries with
    | nil => exact absurd (fun _ hentry => nomatch hentry) hmarked
    | cons entry entries =>
        obtain ⟨key, node⟩ := entry
        have hkey : key = dateTimeKey := by
          by_contra hkey
          exact hmarked fun entry hentry => by obtain rfl := Option.some.inj hentry; exact hkey
        unfold tableValue? at h
        rw [if_pos hkey] at h
        exact sound_of_dateTime? h

theorem sound_of_tableValues? {tables : List Entries} {vs : List Toml}
    (hdistinct : ∀ entries ∈ tables, entries.Distinct)
    (hnodes : ∀ entries ∈ tables, ∀ entry ∈ entries, entry.2.Yields) (h : tableValues? tables = some vs) :
    ∀ v ∈ vs, v.Sound := by
  induction tables generalizing vs with
  | nil =>
      obtain rfl := Option.some.inj h
      exact fun _ hv => absurd hv List.not_mem_nil
  | cons entries tables ih =>
      unfold tableValues? at h
      obtain ⟨value, hvalue, h⟩ := Option.bind_eq_some_iff.mp h
      obtain ⟨others, hothers, h⟩ := Option.bind_eq_some_iff.mp h
      obtain rfl := Option.some.inj h
      intro v hv
      obtain rfl | hv := List.mem_cons.mp hv
      · exact sound_of_tableValue? (hdistinct entries (.head _)) (hnodes entries (.head _)) hvalue
      · exact ih (fun entries hmem => hdistinct entries (.tail _ hmem))
          (fun entries hmem => hnodes entries (.tail _ hmem)) hothers v hv

/-- A sound node stands for a sound value, if for any. -/
theorem Node.Sound.yields (h : node.Sound) : node.Yields := by
  intro v hv
  -- By induction on the node: what is known of the nodes in it is what the lemmas on lists and entries ask for.
  induction h generalizing v with
  | value hsound =>
      obtain rfl := Option.some.inj hv
      exact hsound
  | array _ ih =>
      obtain ⟨vs, hvs, rfl⟩ := Option.map_eq_some_iff.mp hv
      exact .array (sound_of_values? ih hvs)
  | inlineTable hdistinct _ ih => exact sound_of_tableValue? hdistinct ih hv
  | table hdistinct _ ih => exact sound_of_tableValue? hdistinct ih hv
  | tables hdistinct _ ih =>
      unfold Node.toValue? at hv
      obtain ⟨value, hvalue, hv⟩ := Option.bind_eq_some_iff.mp hv
      obtain ⟨others, hothers, hv⟩ := Option.bind_eq_some_iff.mp hv
      obtain rfl := Option.some.inj hv
      refine .array fun item hitem => ?_
      obtain hitem | hitem := List.mem_append.mp hitem
      · exact sound_of_tableValues? (fun entries hmem => hdistinct entries (.tail _ hmem))
          (fun entries hmem => ih entries (.tail _ hmem)) hothers item (List.mem_reverse.mp hitem)
      · rw [List.mem_singleton.mp hitem]
        exact sound_of_tableValue? (hdistinct _ (.head _)) (ih _ (.head _)) hvalue

end Toml

end Esql.Document
