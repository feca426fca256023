import Esql.Document.Toml.Assembly

/-!
# `Document.Toml.Reader` — reading TOML

Readers take something off the start of a text and give what follows it, or none where it does not stand
there. Values may be nested in at most 79 arrays and tables that are written inline, and a key may have at
most 79 parts; these numbers are the arguments on which the readers recur.

## Contents
- spaces, comments and the ends of lines;
- strings in their four forms;
- keys, numbers and values;
- `statements?`, the lines of a document, and `read?`, a whole document.
-/

namespace Esql.Document.Toml

open Esql.Number

/-! ## Spaces and lines -/

/-- The text without the blanks at its start. -/
def skipSpace (cs : List Char) : List Char := cs.dropWhile fun c => c = ' ' || c = '\t'

/-- What comments, and strings apart from their quotes and escapes, may hold. -/
def isPrintable (c : Char) : Bool := c = '\t' || (0x20 ≤ c.toNat && c ≠ '\x7f')

/-- The text behind the line feed at its start. -/
def newline? : List Char → Option (List Char)
  | '\n' :: cs => some cs
  | '\r' :: '\n' :: cs => some cs
  | _ => none

/-- The text behind the line feed at its start, if there is one. -/
def skipNewline (cs : List Char) : List Char := (newline? cs).getD cs

/-- The text without the comment at its start. -/
def skipComment : List Char → List Char
  | '#' :: cs => cs.dropWhile isPrintable
  | cs => cs

/-- The text behind the end of a line: blanks, perhaps a comment, and a line feed or nothing. -/
def lineEnd? (cs : List Char) : Option (List Char) :=
  match skipComment (skipSpace cs) with
  | [] => some []
  | cs => newline? cs

/-- The text without blanks, comments and line feeds at its start; a walk inside a comment or outside. -/
def skipLines (inComment : Bool) : List Char → List Char
  | [] => []
  | '\n' :: cs => skipLines false cs
  | '\r' :: '\n' :: cs => skipLines false cs
  | c :: cs =>
    if inComment then if isPrintable c then skipLines true cs else c :: cs
    else if c = ' ' || c = '\t' then skipLines false cs
    else if c = '#' then skipLines true cs
    else c :: cs

/-! ## Strings

Each reader takes the rest of a string behind its opening quotes and behind the characters `done` in
reverse. -/

/-- The character that an escape of one letter stands for. -/
def simpleEscape? : Char → Option Char
  | 'b' => some '\x08'
  | 't' => some '\t'
  | 'n' => some '\n'
  | 'f' => some '\x0c'
  | 'r' => some '\r'
  | '"' => some '"'
  | '\\' => some '\\'
  | _ => none

/-- The character with the code point that digits of base sixteen stand for. -/
def codePoint? (digits : List Char) : Option Char :=
  let n := valueInBase 16 digits
  if digits.all isHexDigit ∧ n.isValidChar then some (Char.ofNat n) else none

/-- A string with escapes on one line. -/
def basicLine? (done : List Char) : List Char → Option (String × List Char)
  | [] => none
  | '"' :: rest => some (String.ofList done.reverse, rest)
  | '\\' :: 'u' :: a :: b :: c :: d :: rest =>
    match codePoint? [a, b, c, d] with
    | none => none
    | some x => basicLine? (x :: done) rest
  | '\\' :: 'U' :: a :: b :: c :: d :: e :: f :: g :: h :: rest =>
    match codePoint? [a, b, c, d, e, f, g, h] with
    | none => none
    | some x => basicLine? (x :: done) rest
  | '\\' :: e :: rest =>
    match simpleEscape? e with
    | none => none
    | some x => basicLine? (x :: done) rest
  | c :: rest => if isPrintable c then basicLine? (c :: done) rest else none

/-- A string without escapes on one line. -/
def literalLine? (done : List Char) : List Char → Option (String × List Char)
  | [] => none
  | c :: rest =>
    if c = '\x27' then some (String.ofList done.reverse, rest)
    else if isPrintable c then literalLine? (c :: done) rest
    else none

/-- The end of a string of several lines behind three of its quotes: up to two more belong to it. -/
def closeText (quote : Char) (done rest : List Char) : String × List Char :=
  let extra := ((rest.take 2).takeWhile (· = quote)).length
  (String.ofList (List.replicate extra quote ++ done).reverse, rest.drop extra)

/-- Whether only blanks stand before the next line feed. -/
def endsLine (cs : List Char) : Bool := (newline? (skipSpace cs)).isSome

/-- A string with escapes on several lines. Behind a backslash at the end of a line all blanks and line
feeds are left out; `trimming` says that this is going on. -/
def basicText? (trimming : Bool) (done : List Char) : List Char → Option (String × List Char)
  | [] => none
  | '"' :: '"' :: '"' :: rest => some (closeText '"' done rest)
  | '\\' :: 'u' :: a :: b :: c :: d :: rest =>
    match codePoint? [a, b, c, d] with
    | none => none
    | some x => basicText? false (x :: done) rest
  | '\\' :: 'U' :: a :: b :: c :: d :: e :: f :: g :: h :: rest =>
    match codePoint? [a, b, c, d, e, f, g, h] with
    | none => none
    | some x => basicText? false (x :: done) rest
  | '\\' :: e :: rest =>
    if endsLine (e :: rest) then basicText? true done (e :: rest)
    else
      match simpleEscape? e with
      | none => none
      | some x => basicText? false (x :: done) rest
  | '\r' :: '\n' :: rest => basicText? trimming (if trimming then done else '\n' :: done) rest
  | c :: rest =>
    if c = '\n' || (trimming && (c = ' ' || c = '\t')) then
      basicText? trimming (if trimming then done else c :: done) rest
    else if isPrintable c && c ≠ '\\' then basicText? false (c :: done) rest
    else none

/-- A string without escapes on several lines. -/
def literalText? (done : List Char) : List Char → Option (String × List Char)
  | [] => none
  | '\x27' :: '\x27' :: '\x27' :: rest => some (closeText '\x27' done rest)
  | '\r' :: '\n' :: rest => literalText? ('\n' :: done) rest
  | c :: rest =>
    if c = '\n' || isPrintable c then literalText? (c :: done) rest else none

/-- A string at the start of a text. -/
def string? : List Char → Option (String × List Char)
  | '"' :: '"' :: '"' :: cs => basicText? false [] (skipNewline cs)
  | '\x27' :: '\x27' :: '\x27' :: cs => literalText? [] (skipNewline cs)
  | '"' :: cs => basicLine? [] cs
  | '\x27' :: cs => literalLine? [] cs
  | _ => none

/-! ## Keys -/

/-- What a key may hold that is not quoted. -/
def isBareKeyChar (c : Char) : Bool := c.isAlphanum || c = '-' || c = '_'

/-- One part of a key at the start of a text. -/
def keyPart? : List Char → Option (String × List Char)
  | '"' :: cs => basicLine? [] cs
  | '\x27' :: cs => literalLine? [] cs
  | cs =>
    match cs.takeWhile isBareKeyChar with
    | [] => none
    | part => some (String.ofList part, cs.dropWhile isBareKeyChar)

/-- A key of at most the given number of parts at the start of a text, with the blanks around it. -/
def key? : Nat → List Char → Option (List String × List Char)
  | 0, _ => none
  | n + 1, cs =>
    match keyPart? (skipSpace cs) with
    | none => none
    | some (part, cs) =>
      match skipSpace cs with
      | '.' :: cs => (key? n cs).map fun (parts, cs) => (part :: parts, cs)
      | cs => some ([part], cs)

/-- How many parts a key may have, and in how many arrays and inline tables a value may be nested. -/
def maxLevels : Nat := 79

/-! ## Numbers -/

/-- Digits with single underscores between them, without the underscores; there must be one digit. -/
def digits? (isDigit : Char → Bool) : List Char → Option (List Char × List Char)
  | [] => none
  | c :: cs =>
    if isDigit c then
      match cs with
      | '_' :: d :: cs => (digits? isDigit (d :: cs)).map fun (ds, cs) => (c :: ds, cs)
      | ['_'] => none
      | d :: cs =>
        if isDigit d then (digits? isDigit (d :: cs)).map fun (ds, cs) => (c :: ds, cs)
        else some ([c], d :: cs)
      | [] => some ([c], [])
    else none

/-- The sign at the start of a number: whether it is a minus, and what follows it. -/
def sign : List Char → Bool × List Char
  | '+' :: cs => (false, cs)
  | '-' :: cs => (true, cs)
  | cs => (false, cs)

/-- The value of an integer, if it fits 64 bits with a sign. -/
def integer? (n : Int) : Option Toml :=
  if Int64.minValue.toInt ≤ n ∧ n ≤ Int64.maxValue.toInt then some (integer n) else none

/-- A number in another base behind its first two characters. -/
def inBase? (base : Nat) (isDigit : Char → Bool) (cs : List Char) : Option (Toml × List Char) := do
  let (digits, cs) ← digits? isDigit cs
  return (← integer? (valueInBase base digits), cs)

/-- Digits of which the first is not a zero, or a zero alone. -/
def whole? : List Char → Option (List Char × List Char)
  | '0' :: cs => some (['0'], cs)
  | cs => digits? Char.isDigit cs

/-- The digits behind a point, if there is one; none where they are missing. -/
def fraction? : List Char → Option (Option (List Char) × List Char)
  | '.' :: cs => (digits? Char.isDigit cs).map fun (digits, cs) => (some digits, cs)
  | cs => some (none, cs)

/-- An exponent without sign. Its digits count up to the first that makes it 65536 or more: so large an
exponent decides alone, unless thousands of digits stand before it. -/
def exponentSize (digits : List Char) : Nat :=
  digits.foldl (fun e c => if e < UInt16.size then e * 10 + digitValue c else e) 0

/-- The exponent, if there is one; none where its digits are missing. -/
def exponent? : List Char → Option (Option Int × List Char)
  | c :: cs =>
    if c = 'e' || c = 'E' then
      let (negative, cs) := sign cs
      (digits? Char.isDigit cs).map fun (digits, cs) =>
        let e : Int := exponentSize digits
        (some (if negative then -e else e), cs)
    else some (none, c :: cs)
  | [] => some (none, [])

/-- The double of this size; none is the size of a number that is too large for one. Such a number is
refused above zero and infinite below it. -/
def real? (negative : Bool) : Option Magnitude → Option Double
  | some size => some (.finite negative size)
  | none => if negative then some (.infinite true) else none

/-- A number in base ten, an infinity, or the value that is not a number, behind its sign. -/
def decimal? (negative : Bool) : List Char → Option (Toml × List Char)
  | 'i' :: 'n' :: 'f' :: cs => some (float (.infinite negative), cs)
  | 'n' :: 'a' :: 'n' :: cs => some (float .notANumber, cs)
  | cs => do
    let (whole, cs) ← whole? cs
    let (places, cs) ← fraction? cs
    let (exponent, cs) ← exponent? cs
    match places, exponent with
    | none, none =>
      let n : Int := valueInBase 10 whole
      return (← integer? (if negative then -n else n), cs)
    | _, _ =>
      let digits := places.getD []
      let size :=
        Magnitude.ofDecimal (valueInBase 10 (whole ++ digits)) (exponent.getD 0 - digits.length)
      return (float (← real? negative size), cs)

/-- A number at the start of a text. -/
def number? : List Char → Option (Toml × List Char)
  | '0' :: 'x' :: cs => inBase? 16 isHexDigit cs
  | '0' :: 'o' :: cs => inBase? 8 (fun c => '0' ≤ c && c ≤ '7') cs
  | '0' :: 'b' :: cs => inBase? 2 (fun c => c = '0' || c = '1') cs
  | cs =>
    let (negative, cs) := sign cs
    decimal? negative cs

/-- Whether a text begins as dates and times do. -/
def startsDateTime (cs : List Char) : Bool :=
  match cs.span Char.isDigit with
  | ([_, _, _, _], '-' :: _) => true
  | ([_, _], ':' :: _) => true
  | _ => false

/-! ## Values -/

/-- A value that is no array or table, at the very start of a text. -/
def scalar? (cs : List Char) : Option (Toml × List Char) :=
  match cs with
  | '"' :: _ => (string? cs).map fun (s, cs) => (string s, cs)
  | '\x27' :: _ => (string? cs).map fun (s, cs) => (string s, cs)
  | 't' :: 'r' :: 'u' :: 'e' :: cs => some (boolean true, cs)
  | 'f' :: 'a' :: 'l' :: 's' :: 'e' :: cs => some (boolean false, cs)
  | _ =>
    if startsDateTime cs then (dateTime? cs).map fun (d, cs) => (dateTime d, cs)
    else number? cs

/-- The items of an array up to its closing bracket, read behind the items `done` in reverse. Each item takes
a character at least: the first argument is the text from the first item on, and is used up by one for each. -/
def items? (value? : List Char → Option (Node × List Char)) :
    List Char → List Node → List Char → Option (List Node × List Char)
  | [], _, _ => none
  | _ :: ahead, done, cs =>
    match skipLines false cs with
    | ']' :: cs => some (done.reverse, cs)
    | cs =>
      match value? cs with
      | none => none
      | some (item, cs) =>
        match skipLines false cs with
        | ',' :: cs => items? value? ahead (item :: done) cs
        | ']' :: cs => some ((item :: done).reverse, cs)
        | _ => none

/-- A key, `=` and a value. -/
def assignment? (value? : List Char → Option (Node × List Char)) (cs : List Char) :
    Option (Assignment × List Char) := do
  let (path, cs) ← key? maxLevels cs
  let (value, cs) ← value? (skipSpace (← behind? '=' cs))
  return (⟨path, value⟩, cs)

/-- The assignments of an inline table up to its closing brace, read behind the assignments `done` in reverse.
The first argument is as for `items?`. -/
def assignments? (value? : List Char → Option (Node × List Char)) :
    List Char → List Assignment → List Char → Option (List Assignment × List Char)
  | [], _, _ => none
  | _ :: ahead, done, cs =>
    match assignment? value? cs with
    | none => none
    | some (assignment, cs) =>
      match skipSpace cs with
      | ',' :: cs => assignments? value? ahead (assignment :: done) cs
      | '\x7d' :: cs => some ((assignment :: done).reverse, cs)
      | _ => none

/-- The assignments of an inline table behind its opening brace. -/
def inlineAssignments? (value? : List Char → Option (Node × List Char)) (cs : List Char) :
    Option (List Assignment × List Char) :=
  match skipSpace cs with
  | '\x7d' :: cs => some ([], cs)
  | cs => assignments? value? cs [] cs

/-- A value at the very start of a text, in which at most the given number of arrays and inline tables are
nested. -/
def value? : Nat → List Char → Option (Node × List Char)
  | 0, cs => (scalar? cs).map fun (value, cs) => (.value value, cs)
  | levels + 1, cs =>
    match cs with
    | '[' :: cs =>
      (items? (value? levels) cs [] cs).map fun (items, cs) => (.array items, cs)
    | '\x7b' :: cs =>
      match inlineAssignments? (value? levels) cs with
      | none => none
      | some (assignments, cs) => (inlineTable? assignments).map fun table => (table, cs)
    | cs => (scalar? cs).map fun (value, cs) => (.value value, cs)

/-! ## Documents -/

/-- A header behind its opening brackets. -/
def header? (array : Bool) (cs : List Char) : Option (Statement × List Char) := do
  let (path, cs) ← key? maxLevels cs
  let cs ← behind? ']' cs
  if array then return (.arrayHeader path, ← behind? ']' cs) else return (.header path, cs)

/-- A header or an assignment at the very start of a text. -/
def statement? : List Char → Option (Statement × List Char)
  | '[' :: '[' :: cs => header? true cs
  | '[' :: cs => header? false cs
  | cs => (assignment? (value? maxLevels) cs).map fun (assignment, cs) => (.assign assignment, cs)

/-- The statements of a text of at most `n` lines. -/
def statements? : Nat → List Char → Option (List Statement)
  | 0, _ => none
  | n + 1, cs =>
    match skipSpace cs with
    | [] => some []
    | c :: cs =>
      if c = '\n' || c = '\r' || c = '#' then
        match lineEnd? (c :: cs) with
        | none => none
        | some cs => statements? n cs
      else
        match statement? (c :: cs) with
        | none => none
        | some (statement, cs) =>
          match lineEnd? cs with
          | none => none
          | some cs => (statements? n cs).map (statement :: ·)

/-- The text without the mark that may stand at the start of a document. -/
def skipMark : List Char → List Char
  | '\ufeff' :: cs => cs
  | cs => cs

/-- The table whose text is the whole of `text`. -/
def read? (text : String) : Option Toml :=
  let cs := skipMark text.toList
  (statements? (cs.length + 1) cs).bind document?

end Esql.Document.Toml
