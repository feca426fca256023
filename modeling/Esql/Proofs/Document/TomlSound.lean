import Esql.Document.KeyPath
import Esql.Document.Toml.Reader
import Esql.Proofs.Document.TomlTables

/-!
# `Proofs.Document.TomlSound` — what holds of every document that is read

Whatever is read as a number or a date is one within its bounds, and the readers of arrays and inline tables keep what
holds of the values in them. So every document that is read is sound (`sound_of_read?`), and so is what is found in it
(`sound_of_lookup`).

## Contents
- Readers of values without parts.
- `ReadsSound`, and the readers of arrays and inline tables.
- Statements and whole documents.
- What is found in a document.
-/

namespace Esql.Document.Toml

open Esql.Number

variable {cs rest : List Char} {v : Toml}

/-! ## Numbers, strings and dates -/

theorem sound_of_integer? {n : Int} (h : integer? n = some v) : v.Sound := by
  unfold integer? at h
  split at h
  · rename_i hbounds
    obtain rfl := Option.some.inj h
    exact .integer hbounds
  · contradiction

theorem sound_of_inBase? {base : Nat} {isDigit : Char → Bool} (h : inBase? base isDigit cs = some (v, rest)) :
    v.Sound := by
  simp only [inBase?, Option.bind_eq_bind, Option.bind_eq_some_iff, Prod.exists, Option.pure_def, Option.some.injEq,
    Prod.mk.injEq] at h
  obtain ⟨digits, _, -, _, hinteger, rfl, -⟩ := h
  exact sound_of_integer? hinteger

theorem sound_of_decimal? {negative : Bool} (h : decimal? negative cs = some (v, rest)) : v.Sound := by
  unfold decimal? at h
  split at h
  · obtain ⟨rfl, -⟩ := Prod.mk.inj (Option.some.inj h)
    exact .float _
  · obtain ⟨rfl, -⟩ := Prod.mk.inj (Option.some.inj h)
    exact .float _
  · obtain ⟨⟨whole, _⟩, -, h⟩ := Option.bind_eq_some_iff.mp h
    obtain ⟨⟨places, _⟩, -, h⟩ := Option.bind_eq_some_iff.mp h
    obtain ⟨⟨exponent, _⟩, -, h⟩ := Option.bind_eq_some_iff.mp h
    dsimp only at h
    split at h
    · obtain ⟨n, hn, h⟩ := Option.bind_eq_some_iff.mp h
      obtain ⟨rfl, -⟩ := Prod.mk.inj (Option.some.inj h)
      exact sound_of_integer? hn
    · obtain ⟨x, -, h⟩ := Option.bind_eq_some_iff.mp h
      obtain ⟨rfl, -⟩ := Prod.mk.inj (Option.some.inj h)
      exact .float x

theorem sound_of_scalar? (h : scalar? cs = some (v, rest)) : v.Sound := by
  unfold scalar? at h
  split at h
  · obtain ⟨s, -, rfl⟩ := exists_of_map h
    exact .string s
  · obtain ⟨s, -, rfl⟩ := exists_of_map h
    exact .string s
  · obtain ⟨rfl, -⟩ := Prod.mk.inj (Option.some.inj h)
    exact .boolean true
  · obtain ⟨rfl, -⟩ := Prod.mk.inj (Option.some.inj h)
    exact .boolean false
  · split at h
    · obtain ⟨d, hd, rfl⟩ := exists_of_map h
      exact .dateTime (valid_of_dateTime? hd)
    · unfold number? at h
      split at h
      · exact sound_of_inBase? h
      · exact sound_of_inBase? h
      · exact sound_of_inBase? h
      · exact sound_of_decimal? h

/-! ## Arrays and inline tables -/

/-- A reader of values that are sound. -/
def ReadsSound (value? : List Char → Option (Node × List Char)) : Prop :=
  ∀ cs node rest, value? cs = some (node, rest) → node.Sound

section Containers

variable {value? : List Char → Option (Node × List Char)} (hvalue : ReadsSound value?)

include hvalue

theorem sound_of_items? {ahead : List Char} {done items : List Node} (hdone : ∀ item ∈ done, item.Sound)
    (h : items? value? ahead done cs = some (items, rest)) : ∀ item ∈ items, item.Sound := by
  have hreverse {nodes : List Node} (hnodes : ∀ item ∈ nodes, item.Sound) : ∀ item ∈ nodes.reverse, item.Sound :=
    fun item hitem => hnodes item (List.mem_reverse.mp hitem)
  -- The induction is on the text that bounds the number of items; what is read is sound as soon as it is put to `done`.
  induction ahead generalizing done cs with
  | nil => contradiction
  | cons _ ahead ih =>
      unfold items? at h
      split at h
      · obtain ⟨rfl, -⟩ := Prod.mk.inj (Option.some.inj h)
        exact hreverse hdone
      · split at h
        · contradiction
        · rename_i item _ hitem
          have hnext : ∀ node ∈ item :: done, node.Sound := by
            intro node hnode
            obtain rfl | hnode := List.mem_cons.mp hnode
            · exact hvalue _ _ _ hitem
            · exact hdone node hnode
          split at h
          · exact ih hnext h
          · obtain ⟨rfl, -⟩ := Prod.mk.inj (Option.some.inj h)
            exact hreverse hnext
          · contradiction

theorem sound_of_assignment? {a : Assignment} (h : assignment? value? cs = some (a, rest)) : a.value.Sound := by
  simp only [assignment?, Option.bind_eq_bind, Option.bind_eq_some_iff, Prod.exists, Option.pure_def, Option.some.injEq,
    Prod.mk.injEq] at h
  obtain ⟨path, _, -, _, -, node, _, hnode, rfl, -⟩ := h
  exact hvalue _ _ _ hnode

theorem sound_of_assignments? {ahead : List Char} {done assignments : List Assignment}
    (hdone : ∀ a ∈ done, a.value.Sound) (h : assignments? value? ahead done cs = some (assignments, rest)) :
    ∀ a ∈ assignments, a.value.Sound := by
  induction ahead generalizing done cs with
  | nil => contradiction
  | cons _ ahead ih =>
      unfold assignments? at h
      split at h
      · contradiction
      · rename_i assignment _ hassignment
        have hnext : ∀ a ∈ assignment :: done, a.value.Sound := by
          intro a ha
          obtain rfl | ha := List.mem_cons.mp ha
          · exact sound_of_assignment? hvalue hassignment
          · exact hdone a ha
        split at h
        · exact ih hnext h
        · obtain ⟨rfl, -⟩ := Prod.mk.inj (Option.some.inj h)
          exact fun a ha => hnext a (List.mem_reverse.mp ha)
        · contradiction

theorem sound_of_inlineAssignments? {assignments : List Assignment}
    (h : inlineAssignments? value? cs = some (assignments, rest)) : ∀ a ∈ assignments, a.value.Sound := by
  unfold inlineAssignments? at h
  split at h
  · obtain ⟨rfl, -⟩ := Prod.mk.inj (Option.some.inj h)
    exact fun _ ha => absurd ha List.not_mem_nil
  · exact sound_of_assignments? hvalue (fun _ ha => absurd ha List.not_mem_nil) h

end Containers

theorem readsSound_value? (levels : Nat) : ReadsSound (value? levels) := by
  induction levels with
  | zero =>
      intro cs node rest h
      obtain ⟨v, hv, rfl⟩ := exists_of_map h
      exact .value (sound_of_scalar? hv)
  | succ levels ih =>
      intro cs node rest h
      unfold value? at h
      split at h
      · obtain ⟨items, hitems, rfl⟩ := exists_of_map h
        exact .array (sound_of_items? ih (fun _ hitem => absurd hitem List.not_mem_nil) hitems)
      · split at h
        · contradiction
        · rename_i assignments _ hassignments
          obtain ⟨inline, hinline, heq⟩ := Option.map_eq_some_iff.mp h
          obtain ⟨rfl, -⟩ := Prod.mk.inj heq
          obtain ⟨entries, hentries, rfl⟩ := Option.map_eq_some_iff.mp hinline
          have hsound := sound_of_assignAll? (sound_of_inlineAssignments? ih hassignments) .nil hentries
          exact .inlineTable hsound.distinct hsound.nodes
      · obtain ⟨v, hv, rfl⟩ := exists_of_map h
        exact .value (sound_of_scalar? hv)

/-! ## Documents -/

/-- What a statement assigns is sound. -/
def Statement.Sound : Statement → Prop
  | .assign a => a.value.Sound
  | .header _ | .arrayHeader _ => True

theorem sound_of_statement? {statement : Statement} (h : statement? cs = some (statement, rest)) :
    statement.Sound := by
  have hheader {array : Bool} {cs : List Char} (h : header? array cs = some (statement, rest)) : statement.Sound := by
    simp only [header?, Option.bind_eq_bind, Option.bind_eq_some_iff, Prod.exists] at h
    obtain ⟨path, _, -, _, -, h⟩ := h
    split at h
    · obtain ⟨_, -, h⟩ := Option.bind_eq_some_iff.mp h
      obtain ⟨rfl, -⟩ := Prod.mk.inj (Option.some.inj h)
      trivial
    · obtain ⟨rfl, -⟩ := Prod.mk.inj (Option.some.inj h)
      trivial
  unfold statement? at h
  split at h
  · exact hheader h
  · exact hheader h
  · obtain ⟨a, ha, rfl⟩ := exists_of_map h
    exact sound_of_assignment? (readsSound_value? maxLevels) ha

theorem sound_of_statements? {n : Nat} {statements : List Statement} (h : statements? n cs = some statements) :
    ∀ s ∈ statements, s.Sound := by
  induction n generalizing cs statements with
  | zero => contradiction
  | succ n ih =>
      unfold statements? at h
      split at h
      · obtain rfl := Option.some.inj h
        exact fun _ hs => absurd hs List.not_mem_nil
      · split at h
        · split at h
          · contradiction
          · exact ih h
        · split at h
          · contradiction
          · rename_i statement _ hstatement
            split at h
            · contradiction
            · obtain ⟨others, hothers, rfl⟩ := Option.map_eq_some_iff.mp h
              intro s hs
              obtain rfl | hs := List.mem_cons.mp hs
              · exact sound_of_statement? hstatement
              · exact ih hothers s hs

theorem sound_sections {statements : List Statement} (h : ∀ s ∈ statements, s.Sound) :
    (∀ a ∈ (sections statements).1, a.value.Sound) ∧
      ∀ s ∈ (sections statements).2, ∀ a ∈ s.assignments, a.value.Sound := by
  induction statements with
  | nil => exact ⟨fun _ ha => absurd ha List.not_mem_nil, fun _ hs => absurd hs List.not_mem_nil⟩
  | cons statement statements ih =>
      obtain ⟨hassignments, hlater⟩ := ih fun s hs => h s (.tail _ hs)
      -- A header takes the assignments up to the next header, which are the first of what is left.
      have hopened {s : Section} (hs : s.assignments = (sections statements).1) :
          ∀ t ∈ s :: (sections statements).2, ∀ a ∈ t.assignments, a.value.Sound := by
        intro t ht
        obtain rfl | ht := List.mem_cons.mp ht
        · rw [hs]
          exact hassignments
        · exact hlater t ht
      cases statement with
      | assign a =>
          refine ⟨fun b hb => ?_, hlater⟩
          obtain rfl | hb := List.mem_cons.mp hb
          · exact h _ (.head _)
          · exact hassignments b hb
      | header path => exact ⟨fun _ ha => absurd ha List.not_mem_nil, hopened rfl⟩
      | arrayHeader path => exact ⟨fun _ ha => absurd ha List.not_mem_nil, hopened rfl⟩

/-- Every document that is read is sound. -/
theorem sound_of_read? {text : String} {document : Toml} (h : read? text = some document) : document.Sound := by
  obtain ⟨statements, hstatements, hdocument⟩ := Option.bind_eq_some_iff.mp h
  obtain ⟨hassignments, hlater⟩ := sound_sections (sound_of_statements? hstatements)
  unfold document? at hdocument
  obtain ⟨root, hroot, hdocument⟩ := Option.bind_eq_some_iff.mp hdocument
  obtain ⟨whole, hwhole, hdocument⟩ := Option.bind_eq_some_iff.mp hdocument
  obtain ⟨es, hes, hdocument⟩ := Option.bind_eq_some_iff.mp hdocument
  obtain rfl := Option.some.inj hdocument
  have hsound := sound_of_sections hlater (sound_of_assignAll? hassignments .nil hroot) hwhole
  exact sound_of_sorted hsound.distinct (fun entry hentry => (hsound.nodes entry hentry).yields) hes

/-! ## What is found in a document -/

theorem Sound.get? {v inner : Toml} (h : v.Sound) {key : String} (hget : v.get? key = some inner) : inner.Sound := by
  cases h with
  | table _ hentries =>
      obtain ⟨entry, hfind, rfl⟩ := Option.map_eq_some_iff.mp hget
      exact hentries entry (List.mem_of_find?_eq_some hfind)
  | string | integer | float | boolean | dateTime | array => contradiction

theorem sound_of_lookup {document v : Toml} (h : document.Sound) {field : String}
    (hfound : lookup Toml.get? document field = some v) : v.Sound := by
  have hpath {path : List String} {document : Toml} (h : document.Sound)
      (hfold : path.foldlM Toml.get? document = some v) : v.Sound := by
    induction path generalizing document with
    | nil =>
        obtain rfl := Option.some.inj hfold
        exact h
    | cons key path ih =>
        rw [List.foldlM_cons] at hfold
        obtain ⟨inner, hinner, hfold⟩ := Option.bind_eq_some_iff.mp hfold
        exact ih (h.get? hinner) hfold
  unfold lookup at hfound
  split at hfound
  · rename_i hget
    obtain rfl := Option.some.inj hfound
    exact h.get? hget
  · split at hfound
    · contradiction
    · exact hpath h hfound

end Esql.Document.Toml
