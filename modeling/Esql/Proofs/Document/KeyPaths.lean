import Esql.Document.KeyPath
import Mathlib.Data.List.Basic

/-!
# `Proofs.Document.KeyPaths` — paths whose keys are all quoted

Any key that lacks one of the two quotes can be written in a path between quotes of that kind, whatever else it
holds. A path that is written so spells its keys again (`splitDotted_dotted`): nothing in it is trimmed, and dots
and blanks inside the quotes do not count. Nor can it be mistaken for its own first key, which is shorter, so in a
document with that key alone the path is followed (`lookup_dotted`).

## Contents
- `QuotedKey`, a key with a quote that it lacks, and `dotted`, the path through some keys.
- The keys that a path spells.
- Lookup by a path.
-/

namespace Esql.Document

open Esql.Text (isBlank trim trimStart trimEnd)

/-- A key and a quote that it lacks. -/
structure QuotedKey where
  quote : Char
  key : String
  isQuote : isQuote quote = true
  free : quote ∉ key.toList

/-- Any key that lacks one of the quotes can be quoted. -/
theorem exists_quotedKey {key : String} (h : '"' ∉ key.toList ∨ '\x27' ∉ key.toList) :
    ∃ quoted : QuotedKey, quoted.key = key := by
  obtain h | h := h
  · exact ⟨⟨'"', key, rfl, h⟩, rfl⟩
  · exact ⟨⟨'\x27', key, rfl, h⟩, rfl⟩

namespace QuotedKey

/-- A key between its quotes. -/
def text (quoted : QuotedKey) : List Char := quoted.quote :: quoted.key.toList ++ [quoted.quote]

theorem notBlank (quoted : QuotedKey) : isBlank quoted.quote = false := by
  have h := quoted.isQuote
  simp only [Document.isQuote, Bool.or_eq_true, decide_eq_true_eq] at h
  obtain h | h := h <;> rw [h] <;> decide

theorem key?_text (quoted : QuotedKey) (rest : List Char) :
    key? (quoted.text ++ rest) = some (quoted.key.toList, rest) := by
  have hfree : ∀ c ∈ quoted.key.toList, decide (c ≠ quoted.quote) = true := fun c hc =>
    decide_eq_true fun heq => quoted.free (heq ▸ hc)
  have htext : quoted.text ++ rest = quoted.quote :: (quoted.key.toList ++ quoted.quote :: rest) := by simp [text]
  rw [htext, key?, if_pos quoted.isQuote, quotedKey?, List.dropWhile_append_of_pos hfree,
    List.takeWhile_append_of_pos hfree]
  simp

end QuotedKey

/-- The path through some keys, each between its quotes. -/
def dotted (path : List QuotedKey) : String := String.ofList (List.intercalate ['.'] (path.map QuotedKey.text))

variable {path : List QuotedKey}

theorem dotted_singleton (quoted : QuotedKey) : (dotted [quoted]).toList = quoted.text := by
  simp [dotted]

theorem dotted_cons (quoted next : QuotedKey) (path : List QuotedKey) :
    (dotted (quoted :: next :: path)).toList = quoted.text ++ '.' :: (dotted (next :: path)).toList := by
  simp [dotted, List.intercalate_cons_cons]

/-! ## Splitting -/

/-- A path begins with the quote of its first key. -/
theorem exists_first (hne : path ≠ []) :
    ∃ (quoted : QuotedKey) (rest : List Char), (dotted path).toList = quoted.quote :: rest := by
  match path, hne with
  | [quoted], _ => exact ⟨quoted, _, dotted_singleton quoted⟩
  | quoted :: next :: path, _ => exact ⟨quoted, _, dotted_cons quoted next path⟩

/-- A path ends with the quote of its last key. -/
theorem exists_last (hne : path ≠ []) :
    ∃ (quoted : QuotedKey) (initial : List Char), (dotted path).toList = initial ++ [quoted.quote] := by
  induction path with
  | nil => contradiction
  | cons quoted path ih =>
      cases path with
      | nil => exact ⟨quoted, _, dotted_singleton quoted⟩
      | cons next path =>
          obtain ⟨last, initial, h⟩ := ih (List.cons_ne_nil next path)
          refine ⟨last, quoted.text ++ '.' :: initial, ?_⟩
          rw [dotted_cons, h, List.append_assoc, List.cons_append]

theorem trimStart_dotted (hne : path ≠ []) : trimStart (dotted path).toList = (dotted path).toList := by
  obtain ⟨quoted, rest, h⟩ := exists_first hne
  rw [h, trimStart, List.dropWhile_cons_of_neg (by rw [quoted.notBlank]; decide)]

theorem trim_dotted (hne : path ≠ []) : trim (dotted path).toList = (dotted path).toList := by
  obtain ⟨quoted, initial, h⟩ := exists_last hne
  rw [trim, trimStart_dotted hne, trimEnd, h, List.reverse_append, List.reverse_singleton, List.singleton_append,
    trimStart, List.dropWhile_cons_of_neg (by rw [quoted.notBlank]; decide)]
  simp

/-- What stands behind a key is a dot and the path through the others, and none of it is trimmed. -/
theorem keys?_dotted {n : Nat} (hne : path ≠ []) (hn : path.length ≤ n) :
    keys? n (dotted path).toList = some (path.map QuotedKey.key) := by
  induction path generalizing n with
  | nil => contradiction
  | cons quoted path ih =>
      obtain ⟨n, rfl⟩ : ∃ m, n = m + 1 :=
        Nat.exists_eq_add_one_of_ne_zero (by rw [List.length_cons] at hn; omega)
      cases path with
      | nil =>
          have hkey := quoted.key?_text []
          rw [List.append_nil] at hkey
          simp [dotted_singleton, keys?, hkey, trimStart]
      | cons next path =>
          have hrest := ih (List.cons_ne_nil next path) (Nat.le_of_succ_le_succ hn)
          have hdot : trimStart ('.' :: (dotted (next :: path)).toList) =
              '.' :: (dotted (next :: path)).toList := List.dropWhile_cons_of_neg (by decide)
          simp only [dotted_cons, keys?, quoted.key?_text, hdot,
            trimStart_dotted (List.cons_ne_nil next path), hrest]
          simp

/-- There is a separator for every piece but one. -/
theorem length_le_intercalate {separator : List Char} (h : separator ≠ []) (pieces : List (List Char)) :
    pieces.length ≤ (List.intercalate separator pieces).length + 1 := by
  have hpos : 0 < separator.length := List.length_pos_of_ne_nil h
  induction pieces with
  | nil => exact Nat.zero_le _
  | cons piece pieces ih =>
      by_cases hne : pieces = []
      · subst hne
        simp
      · rw [List.intercalate_cons_of_ne_nil hne]
        simp only [List.length_append, List.length_cons]
        omega

theorem length_le_dotted (path : List QuotedKey) : path.length ≤ (dotted path).toList.length + 1 := by
  have hlength := length_le_intercalate (List.cons_ne_nil '.' []) (path.map QuotedKey.text)
  rwa [List.length_map, ← String.toList_ofList (l := List.intercalate ['.'] (path.map QuotedKey.text))] at hlength

/-- A path of quoted keys spells those keys. -/
theorem splitDotted_dotted (hne : path ≠ []) : splitDotted (dotted path) = some (path.map QuotedKey.key) := by
  rw [splitDotted, trim_dotted hne, keys?_dotted hne (length_le_dotted path)]

/-! ## Lookup -/

/-- A path is longer than its first key, which lacks the quotes. -/
theorem dotted_ne_key (quoted : QuotedKey) (path : List QuotedKey) : dotted (quoted :: path) ≠ quoted.key := by
  intro h
  have hlength := congrArg (fun text : String => text.toList.length) h
  cases path with
  | nil =>
      simp only [dotted_singleton, QuotedKey.text, List.length_append, List.length_cons] at hlength
      omega
  | cons next path =>
      simp only [dotted_cons, QuotedKey.text, List.length_append, List.length_cons] at hlength
      omega

/-- In a document that has no member with the path itself as its key, the path is followed. -/
theorem lookup_dotted {Value : Type} {get : Value → String → Option Value} {document : Value} (hne : path ≠ [])
    (habsent : get document (dotted path) = none) :
    lookup get document (dotted path) = (path.map QuotedKey.key).foldlM get document := by
  rw [lookup, habsent, splitDotted_dotted hne]

end Esql.Document
