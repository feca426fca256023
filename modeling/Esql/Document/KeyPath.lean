import Esql.Text.Blank

/-!
# `Document.KeyPath` — dotted key paths

A path names a value inside a document by the keys that lead to it, separated by dots. A key may be
quoted by `"` or `'`, and then it may hold dots and blanks and may be empty; blanks around a key do not
count. A text with an empty unquoted key or an open quote names nothing.

`lookup` finds the value that a text names in any kind of document: a member of the whole document with
exactly that text as its key, or else the value at the end of the path that the text spells.
-/

namespace Esql.Document

open Esql.Text (isBlank trim trimStart)

/-- The characters that quote a key. -/
def isQuote (c : Char) : Bool := c = '"' || c = '\x27'

/-- The key up to the closing quote, and what follows the quote. -/
def quotedKey? (quote : Char) (cs : List Char) : Option (List Char × List Char) :=
  match cs.dropWhile (· ≠ quote) with
  | [] => none
  | _ :: rest => some (cs.takeWhile (· ≠ quote), rest)

/-- The key up to the next dot without the blanks around it, and what follows. -/
def plainKey? (cs : List Char) : Option (List Char × List Char) :=
  match trim (cs.takeWhile (· ≠ '.')) with
  | [] => none
  | key => some (key, cs.dropWhile (· ≠ '.'))

/-- The key at the start of a text, and what follows it. -/
def key? : List Char → Option (List Char × List Char)
  | c :: rest => if isQuote c then quotedKey? c rest else plainKey? (c :: rest)
  | [] => none

/-- At most `n` keys, separated by dots, that make up a text. -/
def keys? : Nat → List Char → Option (List String)
  | 0, _ => none
  | n + 1, cs =>
    match key? cs with
    | none => none
    | some (key, rest) =>
      match trimStart rest with
      | [] => some [String.ofList key]
      | '.' :: rest => (keys? n (trimStart rest)).map (String.ofList key :: ·)
      | _ => none

/-- The keys of the path that a text spells. -/
def splitDotted (text : String) : Option (List String) :=
  -- Every key but the last has a dot behind it.
  keys? (text.toList.length + 1) (trim text.toList)

/-- The value that a text names in a document, where `get` finds the member with a given key. -/
def lookup {Value : Type} (get : Value → String → Option Value) (document : Value) (text : String) :
    Option Value :=
  match get document text with
  | some value => some value
  | none =>
    match splitDotted text with
    | none => none
    | some path => path.foldlM get document

/-! ## Paths and texts that are none -/

example : splitDotted " a . \"b.c\" .'' " = some ["a", "b.c", ""] := by decide +kernel

example : splitDotted "a..b" = none ∧ splitDotted "\"a\"b" = none ∧ splitDotted "" = none := by
  decide +kernel

end Esql.Document
