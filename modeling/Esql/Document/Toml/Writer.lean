import Esql.Document.Toml

/-!
# `Document.Toml.Writer` — writing TOML values on one line

Every value is written so that it can stand behind a key. A string takes the first of four forms that
holds it without escapes, and a form with escapes where none does.

## Contents
- `StringForm` and `quoted`, strings;
- `keyText`, keys;
- `Toml.text`, values inside a table or array;
- `Toml.answer`, a value by itself.
-/

namespace Esql.Document.Toml

open Esql.Number

/-! ## Strings -/

/-- The control characters that no form without escapes can hold; the tab and the line feed are none. -/
def isControl (c : Char) : Bool :=
  (c.toNat < 0x20 && c ≠ '\t' && c ≠ '\n') || c = '\x7f'

/-- Whether a character stands three times in a row. -/
def hasTriple (c : Char) : List Char → Bool
  | a :: b :: d :: rest => (a = c && b = c && d = c) || hasTriple c (b :: d :: rest)
  | _ => false

/-- The forms of a string. -/
inductive StringForm where
  | basicLine
  | literalLine
  | basicText
  | literalText
deriving DecidableEq, Repr

/-- The form in which a string is written. -/
def stringForm (cs : List Char) : StringForm :=
  let free := !cs.any isControl
  if free && !cs.contains '\\' && !cs.contains '"' && !cs.contains '\n' then .basicLine
  else if free && !cs.contains '\x27' && !cs.contains '\n' then .literalLine
  else if free && !cs.contains '\\' && !hasTriple '"' cs then .basicText
  else if free && !hasTriple '\x27' cs then .literalText
  else if cs.contains '\n' then .basicText
  else .basicLine

/-- A digit of base sixteen, in capitals. -/
def hexDigit (n : Nat) : Char := (Nat.digitChar (n % 16)).toUpper

/-- A character that is escaped in every form with escapes, as it is written. -/
def escaped? (c : Char) : Option (List Char) :=
  if c = '\x08' then some ['\\', 'b']
  else if c = '\t' then some ['\\', 't']
  else if c = '\x0c' then some ['\\', 'f']
  else if c = '\r' then some ['\\', 'r']
  else if c = '\\' then some ['\\', '\\']
  else if isControl c then
    some ['\\', 'u', '0', '0', hexDigit (c.toNat / 16), hexDigit c.toNat]
  else none

/-- The inside of a string on one line. -/
def basicLineBody (cs : List Char) : List Char :=
  cs.flatMap fun c =>
    if c = '"' then ['\\', '"'] else if c = '\n' then ['\\', 'n'] else (escaped? c).getD [c]

/-- The inside of a string on several lines, behind `quotes` quotes in a row that were not escaped. Every
third quote in a row is escaped. -/
def basicTextBody (quotes : Nat) : List Char → List Char
  | [] => []
  | c :: cs =>
    if c = '"' then
      if quotes = 2 then '\\' :: '"' :: basicTextBody 0 cs else '"' :: basicTextBody (quotes + 1) cs
    else (escaped? c).getD [c] ++ basicTextBody 0 cs

/-- The line feed behind opening quotes, where the string has one of its own. -/
def opening (cs : List Char) : List Char := if cs.contains '\n' then ['\n'] else []

/-- A string in one of the forms. -/
def inForm (cs : List Char) : StringForm → List Char
  | .basicLine => '"' :: basicLineBody cs ++ ['"']
  | .literalLine => '\x27' :: cs ++ ['\x27']
  | .basicText => ['"', '"', '"'] ++ opening cs ++ basicTextBody 0 cs ++ ['"', '"', '"']
  | .literalText => ['\x27', '\x27', '\x27'] ++ opening cs ++ cs ++ ['\x27', '\x27', '\x27']

/-- A string with its quotes. -/
def quoted (s : String) : List Char := inForm s.toList (stringForm s.toList)

/-! ## Keys -/

/-- What a key may hold that needs no quotes. -/
def isBareChar (c : Char) : Bool := c.isAlphanum || c = '-' || c = '_'

/-- A key, with quotes where it needs them. -/
def keyText (key : String) : List Char :=
  let cs := key.toList
  let free := !cs.any fun c => isControl c || c = '\n'
  if cs ≠ [] && cs.all isBareChar then cs
  else if free && !cs.contains '\\' && !cs.contains '"' then inForm cs .basicLine
  else if free && !cs.contains '\x27' then inForm cs .literalLine
  else inForm cs .basicLine

/-! ## Values -/

/-- Doubles are written without an exponent, and a tie between two shortest decimals goes up. -/
def layout : Layout where
  tiesUp := true
  isPlain _ := true

/-- The text of a double. -/
def floatText : Double → List Char
  | .finite negative size => layout.text negative size
  | .infinite negative => if negative then "-inf".toList else "inf".toList
  | .notANumber => "nan".toList

/-- The text of a truth value. -/
def booleanText (b : Bool) : List Char := if b then "true".toList else "false".toList

/-- Texts with commas between them. -/
def commaSeparated (texts : List (List Char)) : List Char := List.intercalate [',', ' '] texts

mutual

/-- The text of a value inside a table or array. -/
def text : Toml → List Char
  | string s => quoted s
  | integer n => signedDecimal n
  | float x => floatText x
  | boolean b => booleanText b
  | dateTime d => d.text
  | array items => '[' :: commaSeparated (itemTexts items) ++ [']']
  | table [] => ['\x7b', '\x7d']
  | table entries => '\x7b' :: ' ' :: commaSeparated (entryTexts entries) ++ [' ', '\x7d']

/-- The texts of the items of an array. -/
def itemTexts : List Toml → List (List Char)
  | [] => []
  | item :: items => item.text :: itemTexts items

/-- The texts of the entries of a table, in the order of their keys. -/
def entryTexts : List (String × Toml) → List (List Char)
  | [] => []
  | (key, value) :: entries =>
    (keyText key ++ ' ' :: '=' :: ' ' :: value.text) :: entryTexts entries

end

/-- The text of a value by itself: a string as it is, and a date or time as the table that stands for it. -/
def answer : Toml → String
  | string s => s
  | dateTime d =>
    String.ofList (text (table [(dateTimeKey, string (String.ofList d.text))]))
  | value => String.ofList value.text

end Esql.Document.Toml
