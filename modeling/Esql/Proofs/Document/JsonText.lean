import Esql.Document.Json.Writer

/-!
# `Proofs.Document.JsonText` — written JSON is read again

A string that is written comes back when it is read, whatever stands behind it: each character is written as one
escape or as itself, and the reader takes it off in one step (`stringTail?_escaped`). From this, a string that
stands under a row of keys, each in an object of its own, is read as it was written, as long as the reader still
allows an object for each key (`value?_nestedText`).

## Contents
- `Written`, how a character is written, and strings.
- `IsItem`, the text of an item between brackets; arrays of items and objects of members.
- `nestedText` and `nested`, a value under a row of keys, as a text and as a value.
-/

namespace Esql.Document.Json

open Esql.Number

/-! ## Strings -/

/-- The three ways in which a character is written. -/
inductive Written (c : Char) : Prop where
  | letter (e : Char) (text : escaped c = ['\\', e]) (stands : simpleEscape? e = some c)
  | digits (control : c.toNat < 0x20)
      (text : escaped c = ['\\', 'u', '0', '0', hexDigit (c.toNat / 16), hexDigit c.toNat])
  | itself (text : escaped c = [c]) (quote : c ≠ '"') (backslash : c ≠ '\\') (visible : ¬ c.toNat < 0x20)

theorem written (c : Char) : Written c := by
  by_cases hletter : c ∈ ['"', '\\', '\x08', '\x0c', '\n', '\r', '\t']
  · simp only [List.mem_cons, List.not_mem_nil, or_false] at hletter
    rcases hletter with rfl | rfl | rfl | rfl | rfl | rfl | rfl
    all_goals exact .letter _ rfl rfl
  · simp only [List.mem_cons, List.not_mem_nil, or_false, not_or] at hletter
    obtain ⟨hquote, hbackslash, h8, hc, hn, hr, ht⟩ := hletter
    by_cases hcontrol : c.toNat < 0x20
    · exact .digits hcontrol (by simp [escaped, *])
    · exact .itself (by simp [escaped, *]) hquote hbackslash hcontrol

/-- The control characters that are written by their number. -/
theorem codeUnit?_hexDigits {n : Nat} (hn : n < 0x20) :
    codeUnit? ['0', '0', hexDigit (n / 16), hexDigit n] = some n := by
  have hall : ∀ n < 0x20, codeUnit? ['0', '0', hexDigit (n / 16), hexDigit n] = some n := by decide
  exact hall n hn

/-- What is written of a character is free of control characters. -/
theorem visible_escaped {c d : Char} (h : d ∈ escaped c) : ¬ d.toNat < 0x20 := by
  cases written c with
  | letter e text stands =>
      have hletter : ¬ e.toNat < 0x20 := by
        unfold simpleEscape? at stands
        split at stands
        case h_9 => cases stands
        all_goals decide
      rw [text] at h
      simp only [List.mem_cons, List.not_mem_nil, or_false] at h
      obtain rfl | rfl := h
      · decide
      · exact hletter
  | digits control text =>
      have hdigit : ∀ n, ¬ (hexDigit n).toNat < 0x20 := by
        intro n
        have hall : ∀ n < 16, ¬ (Nat.digitChar n).toNat < 0x20 := by decide
        exact hall (n % 16) (Nat.mod_lt n (by decide))
      rw [text] at h
      simp only [List.mem_cons, List.not_mem_nil, or_false] at h
      obtain rfl | rfl | rfl | rfl | rfl | rfl := h
      · decide
      · decide
      · decide
      · decide
      · exact hdigit _
      · exact hdigit _
  | itself text quote backslash visible =>
      rw [text] at h
      obtain rfl := List.mem_singleton.mp h
      exact visible

/-- A written string is free of control characters, whatever the string holds. -/
theorem visible_quoted {s : String} {d : Char} (h : d ∈ quoted s) : ¬ d.toNat < 0x20 := by
  simp only [quoted, List.cons_append, List.mem_cons, List.mem_append, List.mem_flatMap, List.not_mem_nil,
    or_false] at h
  obtain rfl | ⟨c, -, hc⟩ | rfl := h
  · decide
  · exact visible_escaped hc
  · decide

/-- A written character is read in one step. -/
theorem stringTail?_escaped (c : Char) (done rest : List Char) :
    stringTail? done (escaped c ++ rest) = stringTail? (c :: done) rest := by
  cases written c with
  | letter e text stands =>
      have hu : e ≠ 'u' := by rintro rfl; simp [simpleEscape?] at stands
      rw [text]
      simp [stringTail?, stands, hu]
  | digits control text =>
      have hunit : ∀ n < 0x20, ¬ isHighHalf n ∧ ¬ isLowHalf n := by decide
      rw [text]
      simp [stringTail?, codeUnit?_hexDigits control, hunit c.toNat control]
  | itself text quote backslash visible =>
      rw [text]
      simp [stringTail?, visible, backslash]

/-- A string that is written is read as it was, and its closing quote with it. -/
theorem stringTail?_written (cs done rest : List Char) :
    stringTail? done (cs.flatMap escaped ++ '"' :: rest) = some (String.ofList (done.reverse ++ cs), rest) := by
  induction cs generalizing done with
  | nil => simp [stringTail?]
  | cons c cs ih => simp [stringTail?_escaped, ih]

/-! ## Values and members -/

theorem value?_quoted (levels : Nat) (s : String) (rest : List Char) :
    value? levels (quoted s ++ rest) = some (string s, rest) := by
  cases levels <;> simp [value?, quoted, skipSpace, isSpace, scalar?, stringTail?_written]

/-- A member whose key is written as a string. -/
theorem member?_quoted (value? : List Char → Option (Json × List Char)) (key : String) (cs : List Char) :
    member? value? (quoted key ++ ':' :: cs) = (value? cs).map fun (value, cs) => ((key, value), cs) := by
  simp [member?, quoted, skipSpace, isSpace, stringTail?_written]

/-! ## Items between brackets -/

section
variable {α : Type} {item? : List Char → Option (α × List Char)} {close : Char}

/-- The text of an item, which is read off where a comma or the closing bracket follows. -/
def IsItem (item? : List Char → Option (α × List Char)) (close : Char) (text : List Char) (x : α) : Prop :=
  ∀ c rest, c = ',' ∨ c = close → item? (text ++ c :: rest) = some (x, c :: rest)

/-- By induction on the items: behind each stands a comma and the others, or the closing bracket. -/
theorem itemsTail?_listed (hspace : isSpace close = false) (hcomma : close ≠ ',')
    {items : List (List Char × α)} (hne : items ≠ []) (hitems : ∀ i ∈ items, IsItem item? close i.1 i.2)
    {ahead : List Char} (hahead : items.length ≤ ahead.length) (done : List α) (rest : List Char) :
    itemsTail? item? close ahead done (List.intercalate [','] (items.map Prod.fst) ++ close :: rest) =
      some (done.reverse ++ items.map Prod.snd, rest) := by
  induction items generalizing ahead done with
  | nil => contradiction
  | cons item items ih =>
      obtain ⟨a, ahead, rfl⟩ : ∃ a more, ahead = a :: more :=
        List.exists_cons_of_ne_nil (List.ne_nil_of_length_pos (Nat.lt_of_lt_of_le (Nat.succ_pos _) hahead))
      have hitem := hitems item (.head _)
      cases items with
      | nil =>
          have hread := hitem close rest (.inr rfl)
          simp [itemsTail?, hread, skipSpace, hspace, hcomma]
      | cons next items =>
          have hread := hitem ',' (List.intercalate [','] ((next :: items).map Prod.fst) ++ close :: rest) (.inl rfl)
          have hrest := ih (List.cons_ne_nil _ _) (fun i hi => hitems i (.tail _ hi))
            (Nat.le_of_succ_le_succ hahead) (item.2 :: done)
          have htext : List.intercalate [','] ((item :: next :: items).map Prod.fst) ++ close :: rest =
              item.1 ++ ',' :: (List.intercalate [','] ((next :: items).map Prod.fst) ++ close :: rest) := by
            simp [List.intercalate_cons_cons]
          rw [htext, itemsTail?, hread]
          dsimp only
          rw [skipSpace, List.dropWhile_cons_of_neg (by decide)]
          dsimp only
          rw [if_pos rfl, hrest]
          simp

/-- Each item has a comma behind it or the closing bracket. -/
theorem length_le_listed (texts : List (List Char)) (close : Char) (rest : List Char) :
    texts.length ≤ (List.intercalate [','] texts ++ close :: rest).length := by
  induction texts with
  | nil => exact Nat.zero_le _
  | cons text texts ih =>
      cases texts with
      | nil =>
          simp only [List.length_append, List.length_cons, List.length_nil]
          omega
      | cons next texts =>
          simp only [List.intercalate_cons_cons, List.length_append, List.length_cons, List.length_nil] at ih ⊢
          omega

/-- Items between brackets are read one after the other, if the first begins with no space and no bracket. -/
theorem sequence?_listed (hspace : isSpace close = false) (hcomma : close ≠ ',') {c : Char} {cs : List Char} {x : α}
    {items : List (List Char × α)} (hc : isSpace c = false) (hclose : c ≠ close)
    (hitems : ∀ i ∈ (c :: cs, x) :: items, IsItem item? close i.1 i.2) (rest : List Char) :
    sequence? item? close (List.intercalate [','] ((c :: cs) :: items.map Prod.fst) ++ close :: rest) =
      some (x :: items.map Prod.snd, rest) := by
  have hahead := length_le_listed (((c :: cs, x) :: items).map Prod.fst) close rest
  rw [List.length_map] at hahead
  have hread := itemsTail?_listed hspace hcomma (List.cons_ne_nil _ _) hitems hahead [] rest
  obtain ⟨more, hmore⟩ : ∃ more, List.intercalate [','] ((c :: cs) :: items.map Prod.fst) = c :: more := by
    cases items.map Prod.fst with
    | nil => exact ⟨cs, by simp⟩
    | cons text texts => exact ⟨_, by rw [List.intercalate_cons_cons]; rfl⟩
  rw [List.map_cons, hmore] at hread
  rw [hmore]
  simpa [sequence?, skipSpace, hc, hclose] using hread

end

/-! ## Objects -/

/-- A member is read where its value is. -/
theorem isItem_member {value? : List Char → Option (Json × List Char)} {text : List Char} {value : Json}
    (h : IsItem value? '\x7d' text value) (key : String) :
    IsItem (member? value?) '\x7d' (quoted key ++ ':' :: text) (key, value) := by
  intro c rest hc
  rw [List.append_assoc, List.cons_append, member?_quoted, h c rest hc]
  rfl

/-- An object whose members are written with commas between them and without spaces. -/
theorem value?_object {levels : Nat} {key : String} {text : List Char} {value : Json}
    {members : List (List Char × (String × Json))}
    (hmembers : ∀ m ∈ (quoted key ++ ':' :: text, (key, value)) :: members,
      IsItem (member? (value? levels)) '\x7d' m.1 m.2) (rest : List Char) :
    value? (levels + 1)
        ('\x7b' :: (List.intercalate [','] ((quoted key ++ ':' :: text) :: members.map Prod.fst) ++ '\x7d' :: rest)) =
      some (object ((key, value) :: members.map Prod.snd), rest) := by
  have hread := sequence?_listed (by decide) (by decide) (by decide) (by decide) hmembers rest
  rw [value?, skipSpace, List.dropWhile_cons_of_neg (by decide)]
  exact congrArg (Option.map _) hread

/-! ## Nested values -/

/-- The text of a value under a row of keys, each in an object with that member alone. -/
def nestedText (keys : List String) (text : List Char) : List Char :=
  keys.foldr (fun key inner => '\x7b' :: quoted key ++ ':' :: inner ++ ['\x7d']) text

/-- A value under a row of keys, each in an object with that member alone. -/
def nested (keys : List String) (value : Json) : Json :=
  keys.foldr (fun key inner => object [(key, inner)]) value

/-- By induction on the keys: an object takes one level, and the value in it is read with one level less. -/
theorem value?_nestedText {keys : List String} {levels : Nat} (h : keys.length ≤ levels) (s : String)
    (rest : List Char) :
    value? levels (nestedText keys (quoted s) ++ rest) = some (nested keys (string s), rest) := by
  induction keys generalizing levels rest with
  | nil => exact value?_quoted levels s rest
  | cons key keys ih =>
      obtain ⟨levels, rfl⟩ : ∃ n, levels = n + 1 :=
        Nat.exists_eq_add_one_of_ne_zero (by rw [List.length_cons] at h; omega)
      have hmember : ∀ m ∈ [(quoted key ++ ':' :: nestedText keys (quoted s), (key, nested keys (string s)))],
          IsItem (member? (value? levels)) '\x7d' m.1 m.2 := by
        intro m hm
        obtain rfl := List.mem_singleton.mp hm
        exact isItem_member (fun c rest _ => ih (Nat.le_of_succ_le_succ h) (c :: rest)) key
      have htext : nestedText (key :: keys) (quoted s) ++ rest =
          '\x7b' :: (List.intercalate [','] [quoted key ++ ':' :: nestedText keys (quoted s)] ++ '\x7d' :: rest) := by
        simp [nestedText]
      rw [htext]
      exact value?_object hmember rest

theorem read?_nestedText {keys : List String} (h : keys.length ≤ maxLevels) (s : String) :
    read? (String.ofList (nestedText keys (quoted s))) = some (nested keys (string s)) := by
  have hvalue := value?_nestedText h s []
  rw [List.append_nil] at hvalue
  simp [read?, hvalue, skipSpace]

theorem foldlM_get?_nested (keys : List String) (value : Json) :
    keys.foldlM get? (nested keys value) = some value := by
  induction keys with
  | nil => rfl
  | cons key keys ih => simpa [nested, get?] using ih

end Esql.Document.Json
