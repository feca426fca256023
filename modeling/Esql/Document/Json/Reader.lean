import Esql.Document.Json.Numeral

/-!
# `Document.Json.Reader` — reading JSON

A reader takes a value off the start of a text and gives what follows it; none where no value stands
there. Values may be nested in at most 127 arrays and objects: the number of levels that are still
allowed is the argument on which the reader of values recurs.

## Contents
- strings and their escapes;
- `sequence?`, items between brackets with commas between them;
- `value?` and `read?`, a value at the start of a text and a whole text.
-/

namespace Esql.Document.Json

open Esql.Number

/-- What may stand between the tokens of a text. -/
def isSpace (c : Char) : Bool := c = ' ' || c = '\t' || c = '\n' || c = '\r'

/-- The text without the spaces at its start. -/
def skipSpace (cs : List Char) : List Char := cs.dropWhile isSpace

/-! ## Strings -/

/-- The character that an escape of one letter stands for. -/
def simpleEscape? : Char → Option Char
  | '"' => some '"'
  | '\\' => some '\\'
  | '/' => some '/'
  | 'b' => some '\x08'
  | 'f' => some '\x0c'
  | 'n' => some '\n'
  | 'r' => some '\r'
  | 't' => some '\t'
  | _ => none

/-- The code unit that four digits of base sixteen stand for. -/
def codeUnit? (digits : List Char) : Option Nat :=
  if digits.all isHexDigit then some (valueInBase 16 digits) else none

/-- The first halves of pairs. -/
def isHighHalf (unit : Nat) : Bool := 0xD800 ≤ unit && unit ≤ 0xDBFF

/-- The second halves of pairs. -/
def isLowHalf (unit : Nat) : Bool := 0xDC00 ≤ unit && unit ≤ 0xDFFF

/-- The character of two halves. -/
def pairedChar (high low : Nat) : Char :=
  Char.ofNat (0x10000 + (high - 0xD800) * 0x400 + (low - 0xDC00))

/-- The rest of a string up to its closing quote, read behind the characters `done` in reverse. -/
def stringTail? (done : List Char) : List Char → Option (String × List Char)
  | [] => none
  | '"' :: rest => some (String.ofList done.reverse, rest)
  | '\\' :: 'u' :: a :: b :: c :: d :: rest =>
    match codeUnit? [a, b, c, d] with
    | none => none
    | some unit =>
      if isHighHalf unit then
        match rest with
        | '\\' :: 'u' :: e :: f :: g :: h :: rest =>
          match codeUnit? [e, f, g, h] with
          | none => none
          | some low =>
            if isLowHalf low then stringTail? (pairedChar unit low :: done) rest else none
        | _ => none
      else if isLowHalf unit then none
      else stringTail? (Char.ofNat unit :: done) rest
  | '\\' :: e :: rest =>
    match simpleEscape? e with
    | none => none
    | some c => stringTail? (c :: done) rest
  | c :: rest => if c.toNat < 0x20 then none else stringTail? (c :: done) rest

/-! ## Values -/

/-- Items with commas between them up to the bracket `close`, read behind the items `done` in reverse. Each
item takes a character at least: the first argument is the text from the first item on, and is used up by one
for each. -/
def itemsTail? {α : Type} (item? : List Char → Option (α × List Char)) (close : Char) :
    List Char → List α → List Char → Option (List α × List Char)
  | [], _, _ => none
  | _ :: ahead, done, cs =>
    match item? cs with
    | none => none
    | some (x, cs) =>
      match skipSpace cs with
      | [] => none
      | c :: cs =>
        if c = ',' then itemsTail? item? close ahead (x :: done) cs
        else if c = close then some ((x :: done).reverse, cs)
        else none

/-- Items with commas between them, perhaps none, up to the bracket `close`. -/
def sequence? {α : Type} (item? : List Char → Option (α × List Char)) (close : Char)
    (cs : List Char) : Option (List α × List Char) :=
  match skipSpace cs with
  | [] => none
  | c :: rest => if c = close then some ([], rest) else itemsTail? item? close cs [] cs

/-- A member of an object, given how values are read. -/
def member? (value? : List Char → Option (Json × List Char)) (cs : List Char) :
    Option ((String × Json) × List Char) :=
  match skipSpace cs with
  | '"' :: cs =>
    match stringTail? [] cs with
    | none => none
    | some (key, cs) =>
      match skipSpace cs with
      | ':' :: cs => (value? cs).map fun (value, cs) => ((key, value), cs)
      | _ => none
  | _ => none

/-- A value that is no array or object, at the very start of a text. -/
def scalar? : List Char → Option (Json × List Char)
  | '"' :: cs => (stringTail? [] cs).map fun (s, cs) => (string s, cs)
  | 't' :: 'r' :: 'u' :: 'e' :: cs => some (boolean true, cs)
  | 'f' :: 'a' :: 'l' :: 's' :: 'e' :: cs => some (boolean false, cs)
  | 'n' :: 'u' :: 'l' :: 'l' :: cs => some (null, cs)
  | cs => (number? cs).map fun (n, cs) => (number n, cs)

/-- A value in which at most the given number of arrays and objects are nested. -/
def value? : Nat → List Char → Option (Json × List Char)
  | 0, cs => scalar? (skipSpace cs)
  | levels + 1, cs =>
    match skipSpace cs with
    | '[' :: cs => (sequence? (value? levels) ']' cs).map fun (items, cs) => (array items, cs)
    | '\x7b' :: cs =>
      (sequence? (member? (value? levels)) '\x7d' cs).map fun (members, cs) => (object members, cs)
    | cs => scalar? cs

/-- How many arrays and objects may be nested. -/
def maxLevels : Nat := 127

/-- The value whose text is the whole of `text`. -/
def read? (text : String) : Option Json :=
  match value? maxLevels text.toList with
  | none => none
  | some (value, rest) => if skipSpace rest = [] then some value else none

end Esql.Document.Json
