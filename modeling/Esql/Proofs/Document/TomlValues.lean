import Esql.Proofs.Document.KeyPaths
import Esql.Proofs.Document.TomlScalars
import Esql.Proofs.Document.TomlTables

/-!
# `Proofs.Document.TomlValues` — values are read as they are written

A sound value without floats is read as it is written inside a table or array, whatever ends it (`reads_text`). An
array is read item by item and an inline table key by key; in front of each there is nothing but the blank behind the
comma, and its own text begins with a character that neither is skipped nor closes anything (`opens_text`).

What is read is the value as it is written, of which it is not yet asked what it stands for: a table may be read as it
is written and still stand for a date or time. It stands for itself exactly if no table in it has the key of dates and
times as its first (`toValue?_node_iff`).

## Contents
- `Part`, the values inside a value, and what is said of them.
- `node`, a value as it is read.
- Arrays and inline tables.
- What a value stands for when it is read.
-/

namespace Esql.Document.Toml

open Esql.Number

variable {v : Toml} {rest cs : List Char}

/-! ## The values inside a value -/

/-- A value and the values in it, at any depth. -/
inductive Part : Toml → Toml → Prop
  | self (v : Toml) : Part v v
  | item {inner item : Toml} {items : List Toml} : item ∈ items → Part inner item → Part inner (array items)
  | entry {inner : Toml} {entry : String × Toml} {entries : List (String × Toml)} :
      entry ∈ entries → Part inner entry.2 → Part inner (table entries)

/-- There is no float in a value. -/
def FloatFree (v : Toml) : Prop := ∀ x, ¬ Part (float x) v

/-- No table in a value has the key of dates and times as its first. -/
def Unmarked (v : Toml) : Prop := ∀ entries, Part (table entries) v → ∀ entry ∈ entries.head?, entry.1 ≠ dateTimeKey

mutual

/-- How many arrays and tables are nested in a value, itself included. -/
def levels : Toml → Nat
  | array items => itemLevels items + 1
  | table entries => entryLevels entries + 1
  | _ => 0

/-- The most levels of an item. -/
def itemLevels : List Toml → Nat
  | [] => 0
  | item :: items => max item.levels (itemLevels items)

/-- The most levels of a value under a key. -/
def entryLevels : List (String × Toml) → Nat
  | [] => 0
  | (_, value) :: entries => max value.levels (entryLevels entries)

end

theorem levels_le_itemLevels {items : List Toml} : ∀ item ∈ items, item.levels ≤ itemLevels items := by
  induction items with
  | nil => exact fun _ hitem => absurd hitem List.not_mem_nil
  | cons first items ih =>
      intro item hitem
      unfold itemLevels
      obtain rfl | hitem := List.mem_cons.mp hitem
      · exact Nat.le_max_left _ _
      · exact Nat.le_trans (ih item hitem) (Nat.le_max_right _ _)

theorem levels_le_entryLevels {entries : List (String × Toml)} :
    ∀ entry ∈ entries, entry.2.levels ≤ entryLevels entries := by
  induction entries with
  | nil => exact fun _ hentry => absurd hentry List.not_mem_nil
  | cons first entries ih =>
      intro entry hentry
      unfold entryLevels
      obtain rfl | hentry := List.mem_cons.mp hentry
      · exact Nat.le_max_left _ _
      · exact Nat.le_trans (ih entry hentry) (Nat.le_max_right _ _)

theorem floatFree_array_iff {items : List Toml} : (array items).FloatFree ↔ ∀ item ∈ items, item.FloatFree := by
  constructor
  · exact fun h _ hitem x hpart => h x (.item hitem hpart)
  · intro h x hpart
    cases hpart with
    | item hitem hpart => exact h _ hitem x hpart

theorem floatFree_table_iff {entries : List (String × Toml)} :
    (table entries).FloatFree ↔ ∀ entry ∈ entries, entry.2.FloatFree := by
  constructor
  · exact fun h _ hentry x hpart => h x (.entry hentry hpart)
  · intro h x hpart
    cases hpart with
    | entry hentry hpart => exact h _ hentry x hpart

theorem unmarked_array_iff {items : List Toml} : (array items).Unmarked ↔ ∀ item ∈ items, item.Unmarked := by
  constructor
  · exact fun h _ hitem entries hpart => h entries (.item hitem hpart)
  · intro h entries hpart
    cases hpart with
    | item hitem hpart => exact h _ hitem entries hpart

theorem unmarked_table_iff {entries : List (String × Toml)} :
    (table entries).Unmarked ↔
      (∀ entry ∈ entries.head?, entry.1 ≠ dateTimeKey) ∧ ∀ entry ∈ entries, entry.2.Unmarked := by
  constructor
  · intro h
    exact ⟨h entries (.self _), fun _ hentry inner hpart => h inner (.entry hentry hpart)⟩
  · rintro ⟨hfirst, hentries⟩ inner hpart
    cases hpart with
    | self => exact hfirst
    | entry hentry hpart => exact hentries _ hentry inner hpart

theorem text_table_cons (entry : String × Toml) (entries : List (String × Toml)) :
    (table (entry :: entries)).text =
      '\x7b' :: ' ' :: commaSeparated (entryTexts (entry :: entries)) ++ [' ', '\x7d'] := rfl

theorem opens_text (hsound : v.Sound) (hfloat : v.FloatFree) : Opens v.text := by
  have hdigit {c : Char} (hc : c.isDigit = true) : c ∉ [' ', '\t', '\n', '\r', '#', ']', '\x7d'] :=
    not_mem_of_kind hc (by decide)
  cases hsound with
  | string s =>
      obtain ⟨quote, cs, htext, hquote⟩ := exists_quoted s
      refine ⟨quote, cs, htext, ?_⟩
      simp only [List.mem_cons, List.not_mem_nil, or_false] at hquote
      rcases hquote with rfl | rfl <;> decide
  | @integer n =>
      obtain ⟨c, cs, htext, hc | rfl⟩ := exists_signedDecimal n
      · exact ⟨c, cs, htext, hdigit hc⟩
      · exact ⟨'-', cs, htext, by decide⟩
  | float x => exact absurd (.self _) (hfloat x)
  | boolean b => cases b <;> exact ⟨_, _, rfl, by decide⟩
  | dateTime hd =>
      obtain ⟨c, cs, htext, hc⟩ := exists_dateTimeText hd
      exact ⟨c, cs, htext, hdigit hc⟩
  | array => exact ⟨'[', _, rfl, by decide⟩
  | @table entries =>
      cases entries with
      | nil => exact ⟨'\x7b', _, rfl, by decide⟩
      | cons entry entries => exact ⟨'\x7b', _, text_table_cons entry entries, by decide⟩

/-! ## Values as they are read -/

mutual

/-- A value as it is written, which is what is read of its text. -/
def node : Toml → Node
  | array items => .array (itemNodes items)
  | table entries => .inlineTable (entryNodes entries)
  | v => .value v

/-- Items as they are written. -/
def itemNodes : List Toml → List Node
  | [] => []
  | item :: items => item.node :: itemNodes items

/-- Entries as they are written. -/
def entryNodes : List (String × Toml) → Entries
  | [] => []
  | (key, value) :: entries => (key, value.node) :: entryNodes entries

end

/-- A reader reads a value as it is written, whatever ends it. -/
def Reads (value? : List Char → Option (Node × List Char)) (v : Toml) : Prop :=
  ∀ rest, EndsValue rest → value? (v.text ++ rest) = some (v.node, rest)

section Containers

variable {value? : List Char → Option (Node × List Char)} {after ahead : List Char}

/-! ### Arrays -/

/-- An item of an array with a comma behind it. -/
theorem items?_comma {item : Toml} (hcs : skipLines false cs = item.text ++ ',' :: after) (hopens : Opens item.text)
    (hread : value? (item.text ++ ',' :: after) = some (item.node, ',' :: after)) (x : Char) (done : List Node) :
    items? value? (x :: ahead) done cs = items? value? ahead (item.node :: done) after := by
  obtain ⟨c, behind, htext, hc⟩ := hopens
  have hbracket : c ≠ ']' := by rintro rfl; exact hc (by decide)
  rw [htext, List.cons_append] at hcs hread
  simp [items?, hcs, hbracket, hread, skipLines]

/-- The last item of an array. -/
theorem items?_bracket {item : Toml} (hcs : skipLines false cs = item.text ++ ']' :: after) (hopens : Opens item.text)
    (hread : value? (item.text ++ ']' :: after) = some (item.node, ']' :: after)) (x : Char) (done : List Node) :
    items? value? (x :: ahead) done cs = some ((item.node :: done).reverse, after) := by
  obtain ⟨c, behind, htext, hc⟩ := hopens
  have hbracket : c ≠ ']' := by rintro rfl; exact hc (by decide)
  rw [htext, List.cons_append] at hcs hread
  simp [items?, hcs, hbracket, hread, skipLines]

theorem commaSeparated_cons (text next : List Char) (texts : List (List Char)) :
    commaSeparated (text :: next :: texts) = text ++ ',' :: ' ' :: commaSeparated (next :: texts) := by
  simp [commaSeparated, List.intercalate_cons_cons]

theorem commaSeparated_singleton (text : List Char) : commaSeparated [text] = text := by
  simp [commaSeparated]

theorem Opens.commaSeparated {text : List Char} (h : Opens text) (texts : List (List Char)) (rest : List Char) :
    Opens (Toml.commaSeparated (text :: texts) ++ rest) := by
  cases texts with
  | nil =>
      rw [commaSeparated_singleton]
      exact h.append rest
  | cons next texts =>
      rw [commaSeparated_cons, List.append_assoc]
      exact h.append _

/-- The items of an array are read one by one, each behind what may stand in front of it. -/
theorem items?_texts {items : List Toml} (hne : items ≠ [])
    (hitems : ∀ item ∈ items, Opens item.text ∧ item.Reads value?) (hahead : items.length ≤ ahead.length)
    (done : List Node) (hcs : skipLines false cs = commaSeparated (itemTexts items) ++ ']' :: rest) :
    items? value? ahead done cs = some (done.reverse ++ itemNodes items, rest) := by
  induction items generalizing ahead done cs with
  | nil => contradiction
  | cons item items ih =>
      obtain ⟨hopens, hread⟩ := hitems item (.head _)
      cases ahead with
      | nil => contradiction
      | cons x ahead =>
          -- Behind the last item stands the bracket, behind any other a comma and a blank in front of the next.
          cases items with
          | nil =>
              have htext : skipLines false cs = item.text ++ ']' :: rest := by
                rw [hcs, itemTexts, itemTexts, commaSeparated_singleton]
              rw [items?_bracket htext hopens (hread _ (.bracket rest)), List.reverse_cons]
              rfl
          | cons next items =>
              have htext : skipLines false cs =
                  item.text ++ ',' :: ' ' :: (commaSeparated (itemTexts (next :: items)) ++ ']' :: rest) := by
                rw [hcs, itemTexts, itemTexts, commaSeparated_cons]
                simp
              have hnext : Opens (commaSeparated (itemTexts (next :: items)) ++ ']' :: rest) :=
                (hitems next (.tail _ (.head _))).1.commaSeparated _ _
              have hmore := @ih (' ' :: (commaSeparated (itemTexts (next :: items)) ++ ']' :: rest)) ahead
                (List.cons_ne_nil next items) (fun item hitem => hitems item (.tail _ hitem))
                (Nat.le_of_succ_le_succ hahead) (item.node :: done) (skipLines_opens hnext)
              rw [items?_comma htext hopens (hread _ (.comma _)), hmore, List.reverse_cons, List.append_assoc]
              rfl

/-! ### Inline tables -/

theorem opens_keyText (key : String) : Opens (keyText key) := by
  unfold keyText
  dsimp only
  split
  · rename_i hbare
    simp only [Bool.and_eq_true, decide_eq_true_eq] at hbare
    obtain ⟨c, cs, htext⟩ := List.exists_cons_of_ne_nil hbare.1
    refine ⟨c, cs, htext, ?_⟩
    have hc : isBareChar c = true := List.all_eq_true.mp hbare.2 c (by rw [htext]; exact .head _)
    exact not_mem_of_kind hc (by decide)
  · split
    · exact ⟨'"', _, rfl, by decide⟩
    · split
      · exact ⟨'\x27', _, rfl, by decide⟩
      · exact ⟨'"', _, rfl, by decide⟩

theorem key?_keyText {key : String} (n : Nat) (hcs : skipSpace cs = keyText key ++ ' ' :: '=' :: after) :
    key? (n + 1) cs = some ([key], '=' :: after) := by
  simp only [key?, hcs, keyPart?_keyText, skipSpace_space, skipSpace_cons (show '=' ≠ ' ' by decide) (by decide)]
  rfl

theorem assignment?_entry {key : String} {value : Toml}
    (hcs : skipSpace cs = keyText key ++ ' ' :: '=' :: ' ' :: (value.text ++ after)) (hopens : Opens value.text)
    (hread : value? (value.text ++ after) = some (value.node, after)) :
    assignment? value? cs = some (⟨[key], value.node⟩, after) := by
  have hkey : key? maxLevels cs = some ([key], '=' :: ' ' :: (value.text ++ after)) := key?_keyText 78 hcs
  simp [assignment?, hkey, behind?, skipSpace_space, skipSpace_opens (hopens.append after), hread]

/-- The entries of an inline table as they are assigned. -/
def entryAssignments (entries : List (String × Toml)) : List Assignment :=
  entries.map fun entry => ⟨[entry.1], entry.2.node⟩

theorem opens_entryTexts {entries : List (String × Toml)} (hne : entries ≠ []) (rest : List Char) :
    Opens (commaSeparated (entryTexts entries) ++ rest) := by
  obtain ⟨⟨key, value⟩, entries, rfl⟩ := List.exists_cons_of_ne_nil hne
  exact ((opens_keyText key).append _).commaSeparated _ _

/-- The entries of an inline table are read one by one. -/
theorem assignments?_texts {entries : List (String × Toml)} (hne : entries ≠ [])
    (hentries : ∀ entry ∈ entries, Opens entry.2.text ∧ entry.2.Reads value?)
    (hahead : entries.length ≤ ahead.length) (done : List Assignment)
    (hcs : skipSpace cs = commaSeparated (entryTexts entries) ++ ' ' :: '\x7d' :: rest) :
    assignments? value? ahead done cs = some (done.reverse ++ entryAssignments entries, rest) := by
  induction entries generalizing ahead done cs with
  | nil => contradiction
  | cons entry entries ih =>
      obtain ⟨key, value⟩ := entry
      obtain ⟨hopens, hread⟩ := hentries (key, value) (.head _)
      cases ahead with
      | nil => contradiction
      | cons x ahead =>
          cases entries with
          | nil =>
              have htext : skipSpace cs =
                  keyText key ++ ' ' :: '=' :: ' ' :: (value.text ++ ' ' :: '\x7d' :: rest) := by
                rw [hcs, entryTexts, entryTexts, commaSeparated_singleton]
                simp
              rw [assignments?, assignment?_entry htext hopens (hread _ (.brace rest))]
              show some _ = _
              rw [List.reverse_cons]
              rfl
          | cons next entries =>
              have htext : skipSpace cs = keyText key ++ ' ' :: '=' :: ' ' :: (value.text ++
                  ',' :: ' ' :: (commaSeparated (entryTexts (next :: entries)) ++ ' ' :: '\x7d' :: rest)) := by
                rw [hcs, entryTexts, entryTexts, commaSeparated_cons]
                simp
              have hnext := opens_entryTexts (List.cons_ne_nil next entries) (' ' :: '\x7d' :: rest)
              have hmore := @ih (' ' :: (commaSeparated (entryTexts (next :: entries)) ++ ' ' :: '\x7d' :: rest)) ahead
                (List.cons_ne_nil next entries) (fun entry hentry => hentries entry (.tail _ hentry))
                (Nat.le_of_succ_le_succ hahead) (⟨[key], value.node⟩ :: done) (skipSpace_opens hnext)
              rw [assignments?, assignment?_entry htext hopens (hread _ (.comma _))]
              show assignments? value? ahead (⟨[key], value.node⟩ :: done) _ = _
              rw [hmore, List.reverse_cons, List.append_assoc]
              rfl

end Containers

theorem keys_entryNodes (entries : List (String × Toml)) :
    (entryNodes entries).map Prod.fst = entries.map Prod.fst := by
  induction entries with
  | nil => rfl
  | cons entry entries ih => rw [entryNodes, List.map_cons, List.map_cons, ih]

/-- Assignments to different keys make up a table with these keys in their order. -/
theorem assignAll?_entryAssignments {entries : List (String × Toml)} {made : Entries}
    (h : (made.map Prod.fst ++ entries.map Prod.fst).Nodup) :
    assignAll? (entryAssignments entries) made = some (made ++ entryNodes entries) := by
  induction entries generalizing made with
  | nil =>
      rw [entryNodes, List.append_nil]
      rfl
  | cons entry entries ih =>
      obtain ⟨key, value⟩ := entry
      have habsent : made.get? key = none := by
        rw [Entries.get?_eq_none_iff]
        intro hkey
        exact (List.nodup_append.mp h).2.2 key hkey key (by simp) rfl
      -- The new key goes behind those made so far, from which it differs.
      have hassign : assign? value.node [key] made = some (made ++ [(key, value.node)]) := by
        rw [assign?, habsent]
      have hrest := @ih (made ++ [(key, value.node)]) (by simpa using h)
      show (assign? value.node [key] made).bind (assignAll? (entryAssignments entries)) = _
      rw [hassign, Option.bind_some, hrest, entryNodes, List.append_assoc]
      rfl

theorem nodup_of_pairwise {entries : List (String × Toml)} (h : entries.Pairwise fun a b => a.1 < b.1) :
    (entries.map Prod.fst).Nodup := by
  refine List.pairwise_map.mpr (h.imp fun hless heq => ?_)
  rw [heq] at hless
  exact String.lt_irrefl _ hless

theorem length_itemTexts (items : List Toml) : (itemTexts items).length = items.length := by
  induction items with
  | nil => rfl
  | cons item items ih => rw [itemTexts, List.length_cons, List.length_cons, ih]

theorem length_entryTexts (entries : List (String × Toml)) : (entryTexts entries).length = entries.length := by
  induction entries with
  | nil => rfl
  | cons entry entries ih => rw [entryTexts, List.length_cons, List.length_cons, ih]

/-- An array is at least as long as it has items. -/
theorem length_le_commaSeparated (texts : List (List Char)) (c : Char) (rest : List Char) :
    texts.length ≤ (commaSeparated texts ++ c :: rest).length := by
  have hlength := length_le_intercalate (List.cons_ne_nil ',' [' ']) texts
  rw [List.length_append, List.length_cons]
  show texts.length ≤ (List.intercalate [',', ' '] texts).length + (rest.length + 1)
  omega

theorem reads_array {n : Nat} {items : List Toml}
    (hitems : ∀ item ∈ items, Opens item.text ∧ item.Reads (value? n)) : (array items).Reads (value? (n + 1)) := by
  -- The bracket ends an array, so nothing is asked of what stands behind it.
  intro rest _
  have hwhole : (array items).text ++ rest = '[' :: (commaSeparated (itemTexts items) ++ ']' :: rest) := by
    simp [text]
  rw [hwhole]
  show (items? (value? n) (commaSeparated (itemTexts items) ++ ']' :: rest) []
    (commaSeparated (itemTexts items) ++ ']' :: rest)).map _ = some (Node.array (itemNodes items), rest)
  cases items with
  | nil => rfl
  | cons item items =>
      have hopens : Opens (commaSeparated (itemTexts (item :: items)) ++ ']' :: rest) :=
        (hitems item (.head _)).1.commaSeparated _ _
      have hlength := length_le_commaSeparated (itemTexts (item :: items)) ']' rest
      rw [length_itemTexts] at hlength
      rw [items?_texts (List.cons_ne_nil item items) hitems hlength [] (skipLines_opens hopens)]
      rfl

theorem reads_table {n : Nat} {entries : List (String × Toml)} (hpairwise : entries.Pairwise fun a b => a.1 < b.1)
    (hentries : ∀ entry ∈ entries, Opens entry.2.text ∧ entry.2.Reads (value? n)) :
    (table entries).Reads (value? (n + 1)) := by
  intro rest _
  cases entries with
  | nil => rfl
  | cons entry entries =>
      -- The entries begin with a key, so the blank behind the brace is all that is skipped.
      have hopens := opens_entryTexts (List.cons_ne_nil entry entries) (' ' :: '\x7d' :: rest)
      have hlength := length_le_commaSeparated (entryTexts (entry :: entries)) ' ' ('\x7d' :: rest)
      rw [length_entryTexts] at hlength
      have hread := assignments?_texts (List.cons_ne_nil entry entries) hentries hlength [] (skipSpace_opens hopens)
      have hassign : assignAll? (entryAssignments (entry :: entries)) [] = some (entryNodes (entry :: entries)) :=
        @assignAll?_entryAssignments (entry :: entries) [] (nodup_of_pairwise hpairwise)
      have hwhole : (table (entry :: entries)).text ++ rest =
          '\x7b' :: ' ' :: (commaSeparated (entryTexts (entry :: entries)) ++ ' ' :: '\x7d' :: rest) := by
        simp [text_table_cons]
      have hinline : inlineAssignments? (value? n)
          (' ' :: (commaSeparated (entryTexts (entry :: entries)) ++ ' ' :: '\x7d' :: rest)) =
            some (entryAssignments (entry :: entries), rest) := by
        rw [List.reverse_nil, List.nil_append] at hread
        rw [inlineAssignments?, skipSpace_space, skipSpace_opens hopens]
        obtain ⟨c, behind, htext, hc⟩ := hopens
        have hbrace : c ≠ '\x7d' := by rintro rfl; exact hc (by decide)
        rw [htext] at hread ⊢
        simp [hbrace, hread]
      rw [hwhole]
      simp [value?, hinline, inlineTable?, hassign, node]

/-- **A value is read as it is written inside a table or array**, if as many levels may be nested as it has. -/
theorem reads_text (hsound : v.Sound) (hfloat : v.FloatFree) {n : Nat} (hn : v.levels ≤ n) : v.Reads (value? n) := by
  -- Every array and table uses up one level for what is in it.
  induction hsound generalizing n with
  | string s => exact fun rest hrest => value?_quoted n s hrest
  | integer hi => exact fun rest hrest => value?_signedDecimal n hi hrest
  | float x => exact absurd (.self _) (hfloat x)
  | boolean b => exact fun rest _ => value?_booleanText n b rest
  | dateTime hd => exact fun rest hrest => value?_dateTimeText n hd hrest
  | @array items hsound ih =>
      rw [levels] at hn
      obtain ⟨m, rfl⟩ : ∃ m, n = m + 1 := Nat.exists_eq_add_one_of_ne_zero (by omega)
      refine reads_array fun item hitem => ?_
      have hlevels := levels_le_itemLevels item hitem
      have hfree := floatFree_array_iff.mp hfloat item hitem
      exact ⟨opens_text (hsound item hitem) hfree, ih item hitem hfree (by omega)⟩
  | @table entries hpairwise hsound ih =>
      rw [levels] at hn
      obtain ⟨m, rfl⟩ : ∃ m, n = m + 1 := Nat.exists_eq_add_one_of_ne_zero (by omega)
      refine reads_table hpairwise fun entry hentry => ?_
      have hlevels := levels_le_entryLevels entry hentry
      have hfree := floatFree_table_iff.mp hfloat entry hentry
      exact ⟨opens_text (hsound entry hentry) hfree, ih entry hentry hfree (by omega)⟩

/-! ## What is read stands for -/

theorem values?_itemNodes_iff (items : List Toml) :
    values? (itemNodes items) = some items ↔ ∀ item ∈ items, item.node.toValue? = some item := by
  induction items with
  | nil => exact iff_of_true rfl fun _ hitem => absurd hitem List.not_mem_nil
  | cons item items ih =>
      rw [itemNodes, values?, List.forall_mem_cons, ← ih]
      simp [Option.bind_eq_some_iff]

theorem entryValues?_entryNodes_iff (entries : List (String × Toml)) :
    entryValues? (entryNodes entries) = some entries ↔ ∀ entry ∈ entries, entry.2.node.toValue? = some entry.2 := by
  induction entries with
  | nil => exact iff_of_true rfl fun _ hentry => absurd hentry List.not_mem_nil
  | cons entry entries ih =>
      obtain ⟨key, value⟩ := entry
      rw [entryNodes, entryValues?, List.forall_mem_cons, ← ih]
      simp [Option.bind_eq_some_iff]

theorem head?_entryNodes {entries : List (String × Toml)} :
    (∀ entry ∈ (entryNodes entries).head?, entry.1 ≠ dateTimeKey) ↔ ∀ entry ∈ entries.head?, entry.1 ≠ dateTimeKey := by
  cases entries with
  | nil => exact iff_of_true (fun _ h => nomatch h) fun _ h => nomatch h
  | cons entry entries => simp [entryNodes]

/-- A table whose first key is that of dates and times stands for no table. -/
theorem tableValue?_marked {entries : Entries} (h : ¬ ∀ entry ∈ entries.head?, entry.1 ≠ dateTimeKey)
    (es : List (String × Toml)) : tableValue? entries ≠ some (table es) := by
  cases entries with
  | nil => exact absurd (fun _ hentry => nomatch hentry) h
  | cons entry entries =>
      obtain ⟨key, node⟩ := entry
      have hkey : key = dateTimeKey := by simpa using h
      rw [tableValue?, if_pos hkey]
      intro hdate
      unfold Node.dateTime? at hdate
      split at hdate
      · obtain ⟨d, -, heq⟩ := Option.map_eq_some_iff.mp hdate
        contradiction
      · contradiction

/-- **What is read of a value stands for it exactly if no table in it is marked as a date or time.** -/
theorem toValue?_node_iff (hsound : v.Sound) : v.node.toValue? = some v ↔ v.Unmarked := by
  induction hsound with
  | string | integer | float | boolean | dateTime => exact iff_of_true rfl fun _ hpart => nomatch hpart
  | @array items _ ih =>
      have hvalue : (array items).node.toValue? = (values? (itemNodes items)).map array := rfl
      rw [unmarked_array_iff, hvalue, ← forall₂_congr ih, ← values?_itemNodes_iff]
      simp
  | @table entries hpairwise _ ih =>
      have hvalue : (table entries).node.toValue? = tableValue? (entryNodes entries) := rfl
      rw [unmarked_table_iff, hvalue]
      by_cases hfirst : ∀ entry ∈ entries.head?, entry.1 ≠ dateTimeKey
      · rw [and_iff_right hfirst, ← forall₂_congr ih, ← entryValues?_entryNodes_iff,
          tableValue?_eq (head?_entryNodes.mpr hfirst), Option.map_eq_some_iff]
        constructor
        · -- The entries that are read have the keys in their order, so ordering them changes nothing.
          rintro ⟨es, hes, heq⟩
          have hkeys : es.map Prod.fst = entries.map Prod.fst := by
            rw [keys_of_entryValues? hes, keys_entryNodes]
          have hordered : es.Pairwise fun a b => a.1 < b.1 := by
            have hall : (es.map Prod.fst).Pairwise (· < ·) := by
              rw [hkeys]
              exact List.pairwise_map.mpr hpairwise
            exact List.pairwise_map.mp hall
          rw [sortByKey_eq_self hordered] at heq
          obtain rfl : es = entries := Toml.table.inj heq
          exact hes
        · intro hes
          exact ⟨entries, hes, by rw [sortByKey_eq_self hpairwise]⟩
      · exact iff_of_false (tableValue?_marked (fun h => hfirst (head?_entryNodes.mp h)) entries)
          fun h => hfirst h.1

end Esql.Document.Toml
