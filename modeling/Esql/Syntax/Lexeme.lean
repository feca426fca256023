import Esql.Syntax.Trivia

/-!
# `Syntax.Lexeme` — the form of tokens

A form is given by how many characters of the text it covers, so a token and what follows it are always
the two parts of the text at that number: nothing is lost and nothing is read twice. Each function here
says for the text at its start which kind of token stands there (none where the text has no known form)
and how many characters belong to it.

## Contents
- character classes and runs of characters of a class;
- numbers, strings, quoted identifiers, operators;
- `lexeme`, which chooses the form by mode and first character;
- `Cursor.next`, which skips trivia and cuts off the next token.
-/

namespace Esql.Syntax

open Esql.Text (Position isBlank)

/-! ## Character classes -/

/-- The character that quotes identifiers. -/
def backquote : Char := '\x60'

/-- ASCII letters, digits and the underscore. -/
def isWordChar (c : Char) : Bool := c.isAlphanum || c = '_'

/-- What a name pattern may begin with. -/
def startsPattern (c : Char) : Bool := c.isAlpha || c = '_' || c = '@' || c = '*'

/-- What a name pattern may go on with. -/
def isPatternChar (c : Char) : Bool := isWordChar c || c = '*'

/-- What an index pattern may hold; a slash only where it opens no comment. -/
def isSourceChar (c : Char) (next : Option Char) : Bool :=
  !(isBlank c || [':', '"', '=', '|', ',', '[', ']'].contains c)
    && !(c = '/' && (next = some '*' || next = some '/'))

/-! ## Runs -/

/-- How many characters of the class stand at the start. -/
def runLength (isMember : Char → Bool) (cs : List Char) : Nat := (cs.takeWhile isMember).length

/-- How many characters of an index pattern stand at the start, on top of `n`. -/
def sourceLength : Nat → List Char → Nat
  | n, c :: rest => if isSourceChar c rest.head? then sourceLength (n + 1) rest else n
  | n, [] => n

/-! ## Numbers -/

/-- The length of the exponent at the start; 0 where a digit is missing. -/
def exponentLength : List Char → Nat
  | e :: c :: rest =>
    if e = 'e' || e = 'E' then
      if c.isDigit then 2 + runLength Char.isDigit rest
      else if (c = '+' || c = '-') && rest.head?.any Char.isDigit then 2 + runLength Char.isDigit rest
      else 0
    else 0
  | _ => 0

/-- A number: digits, then a point with any digits, then an exponent. A point or an exponent makes it a
decimal. -/
def number (cs : List Char) : Kind × Nat :=
  let whole := runLength Char.isDigit cs
  match cs.drop whole with
  | '.' :: rest =>
    let fraction := runLength Char.isDigit rest
    (.decimal, whole + 1 + fraction + exponentLength (rest.drop fraction))
  | rest =>
    let exponent := exponentLength rest
    (if exponent = 0 then .integer else .decimal, whole + exponent)

/-! ## Quoted forms

The number that these take is how many characters have been read already. -/

/-- The rest of a string that stands on one line. -/
def quotedLine : Nat → List Char → Option Kind × Nat
  | n, '"' :: _ => (some .string, n + 1)
  | n, '\\' :: c :: rest => if c = '\n' || c = '\r' then (none, n + 1) else quotedLine (n + 2) rest
  | n, ['\\'] => (none, n + 1)
  | n, c :: rest => if c = '\n' || c = '\r' then (none, n) else quotedLine (n + 1) rest
  | n, [] => (none, n)

/-- The rest of a string that ends with the first three quotes in a row. -/
def quotedText : Nat → List Char → Option Kind × Nat
  | n, '"' :: '"' :: '"' :: _ => (some .string, n + 3)
  | n, _ :: rest => quotedText (n + 1) rest
  | n, [] => (none, n)

/-- The rest of a quoted identifier, in which two quotes in a row stand for one. -/
def quotedName : Nat → List Char → Option Kind × Nat
  | n, '\x60' :: '\x60' :: rest => quotedName (n + 2) rest
  | n, '\x60' :: _ => (some .quotedIdentifier, n + 1)
  | n, _ :: rest => quotedName (n + 1) rest
  | n, [] => (none, n)

/-! ## Operators -/

/-- An operator of two characters, or else of one. -/
def operator : List Char → Option Kind × Nat
  | '=' :: '=' :: _ => (some .equal, 2)
  | '!' :: '=' :: _ => (some .notEqual, 2)
  | '<' :: '=' :: _ => (some .lessEqual, 2)
  | '>' :: '=' :: _ => (some .greaterEqual, 2)
  | '=' :: '~' :: _ => (some .equalAnyCase, 2)
  | ':' :: ':' :: _ => (some .cast, 2)
  | '=' :: _ => (some .assign, 1)
  | '<' :: _ => (some .less, 1)
  | '>' :: _ => (some .greater, 1)
  | '+' :: _ => (some .plus, 1)
  | '-' :: _ => (some .minus, 1)
  | '*' :: _ => (some .star, 1)
  | '/' :: _ => (some .slash, 1)
  | '%' :: _ => (some .percent, 1)
  | ':' :: _ => (some .colon, 1)
  | '|' :: _ => (some .pipe, 1)
  | ',' :: _ => (some .comma, 1)
  | '.' :: _ => (some .dot, 1)
  | '(' :: _ => (some .leftParen, 1)
  | ')' :: _ => (some .rightParen, 1)
  | '[' :: _ => (some .leftBracket, 1)
  | ']' :: _ => (some .rightBracket, 1)
  | '{' :: _ => (some .leftBrace, 1)
  | '}' :: _ => (some .rightBrace, 1)
  | _ => (none, 1)

/-! ## All forms -/

/-- A parameter: one or two question marks and any word characters. -/
def parameterLength : List Char → Nat
  | '?' :: rest => 2 + runLength isWordChar rest
  | rest => 1 + runLength isWordChar rest

/-- The form that begins with the character `c` before `rest`, in every mode where no form of the mode's
own begins there. -/
def commonLexeme (c : Char) (rest : List Char) : Option Kind × Nat :=
  if c.isAlpha then (some .identifier, 1 + runLength isWordChar rest)
  else if c = '_' || c = '@' then
    -- Alone these are no name.
    let n := runLength isWordChar rest
    (if n = 0 then none else some .identifier, 1 + n)
  else if c.isDigit || (c = '.' && rest.head?.any Char.isDigit) then
    let (kind, n) := number (c :: rest)
    (some kind, n)
  else if c = '"' then
    match rest with
    | '"' :: '"' :: body => quotedText 3 body
    | body => quotedLine 1 body
  else if c = backquote then quotedName 1 rest
  else if c = '?' then (some .parameter, parameterLength rest)
  else operator (c :: rest)

/-- The form that begins with the character `c` before `rest`. -/
def lexeme (mode : Mode) (c : Char) (rest : List Char) : Option Kind × Nat :=
  match mode with
  | .source =>
    if isSourceChar c rest.head? then (some .source, sourceLength 1 rest) else commonLexeme c rest
  | .pattern =>
    if startsPattern c then (some .namePattern, 1 + runLength isPatternChar rest)
    else commonLexeme c rest
  | .expression => commonLexeme c rest

/-- The token that stands at a place which no trivia follows. -/
def Cursor.token (mode : Mode) (here : Cursor) : Except SyntaxError Token :=
  match here.rest with
  | [] => .ok (Token.endOfText here.position)
  | c :: rest =>
    match lexeme mode c rest with
    | (some kind, n) => .ok (Token.cut kind n here)
    | (none, n) => .error ⟨here.position, .unrecognised (here.rest.take n)⟩

/-- The next token at or after a place. -/
def Cursor.next (mode : Mode) (here : Cursor) : Except SyntaxError Token := do
  (← skipTrivia .nothing here.position here.rest).token mode

end Esql.Syntax
