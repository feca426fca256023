import Esql.Text.Position
import Esql.Syntax.Keyword

/-!
# `Syntax.Token` — pieces of a statement

A statement is read token by token, and how a piece of text is cut depends on where the reader stands:
an index pattern may hold characters that are operators elsewhere, and a name pattern may hold `*`. The
three ways of cutting are the modes.

A token keeps the text that it covers, where it starts, and the text that follows it. The grammar sees
less of it: only its `Symbol`, the kind of the token and the keyword that it spells, if it spells one.
-/

namespace Esql.Syntax

open Esql.Text (Position)

/-- How the text is cut into tokens. -/
inductive Mode where
  /-- Commands, expressions and qualified names. -/
  | expression
  /-- Index patterns and the names of enrich policies. -/
  | source
  /-- Patterns of field names, which may hold `*`. -/
  | pattern
deriving DecidableEq, Repr

/-- What a token is. -/
inductive Kind where
  | identifier | quotedIdentifier | source | namePattern | string | integer | decimal | parameter
  | equal | notEqual | less | lessEqual | greater | greaterEqual | equalAnyCase | assign
  | plus | minus | star | slash | percent | cast | colon | pipe | comma | dot
  | leftParen | rightParen | leftBracket | rightBracket | leftBrace | rightBrace | endOfText
deriving DecidableEq, Repr

/-- The name of a kind of token in diagnostics. -/
def Kind.label : Kind → String
  | identifier => "UNQUOTED_IDENTIFIER"
  | quotedIdentifier => "QUOTED_IDENTIFIER"
  | source => "UNQUOTED_SOURCE"
  | namePattern => "ID_PATTERN"
  | string => "QUOTED_STRING"
  | integer => "INTEGER_LITERAL"
  | decimal => "DECIMAL_LITERAL"
  | parameter => "'?'"
  | equal => "'=='"
  | notEqual => "'!='"
  | less => "'<'"
  | lessEqual => "'<='"
  | greater => "'>'"
  | greaterEqual => "'>='"
  | equalAnyCase => "'=~'"
  | assign => "'='"
  | plus => "'+'"
  | minus => "'-'"
  | star => "'*'"
  | slash => "'/'"
  | percent => "'%'"
  | cast => "'::'"
  | colon => "':'"
  | pipe => "'|'"
  | comma => "','"
  | dot => "'.'"
  | leftParen => "'('"
  | rightParen => "')'"
  | leftBracket => "'['"
  | rightBracket => "']'"
  | leftBrace => "'\x7b'"
  | rightBrace => "'\x7d'"
  | endOfText => "<EOF>"

/-- The kinds of token that may spell a keyword. -/
def Kind.isWord : Kind → Bool
  | identifier | source | namePattern => true
  | _ => false

/-- A place in a statement and the text that follows it. -/
structure Cursor where
  position : Position
  rest : List Char
deriving DecidableEq, Repr

/-- The place before the first character of a statement. -/
def Cursor.start (text : List Char) : Cursor := ⟨Position.start, text⟩

/-! ## Tokens -/

/-- What the grammar sees of a token: its kind and the keyword that it spells. -/
structure Symbol where
  kind : Kind
  keyword : Option Keyword
deriving DecidableEq, Repr

/-- What the grammar sees of a piece of text of this kind. -/
def Symbol.ofText (kind : Kind) (text : List Char) : Symbol :=
  ⟨kind, if kind.isWord then Keyword.ofWord? text else none⟩

/-- A piece of a statement. -/
structure Token extends Symbol where
  /-- The characters that the token covers; none for the end of the text. -/
  text : List Char
  start : Position
  /-- What follows the token. -/
  rest : List Char
deriving DecidableEq, Repr

namespace Token

/-- The token that stands where nothing follows. -/
def endOfText (p : Position) : Token := ⟨.ofText .endOfText [], [], p, []⟩

/-- The first `n` characters at a place, as a token of this kind. -/
def cut (kind : Kind) (n : Nat) (here : Cursor) : Token :=
  ⟨.ofText kind (here.rest.take n), here.rest.take n, here.position, here.rest.drop n⟩

/-- The place behind a token. -/
def finish (t : Token) : Cursor := ⟨t.start.after t.text, t.rest⟩

/-- How diagnostics show a token. -/
def shown (t : Token) : String :=
  if t.kind = .endOfText then Kind.endOfText.label else String.ofList t.text

end Token

/-! ## What the grammar asks -/

/-- What a rule of the grammar may ask of the next token. -/
inductive Terminal where
  /-- A token of this kind. -/
  | kind (k : Kind)
  /-- A word that spells this keyword. -/
  | word (w : Keyword)
  /-- An unquoted identifier that is not reserved. -/
  | name
deriving DecidableEq, Repr

namespace Terminal

/-- Whether a token looks as the terminal asks. -/
def accepts : Terminal → Symbol → Bool
  | kind k, s => s.kind = k
  | word w, s => s.keyword = some w
  | name, s => s.kind = .identifier && !(s.keyword.any Keyword.isReserved)

/-- The name of a terminal in diagnostics. -/
def label : Terminal → String
  | kind k => k.label
  | word w => "'" ++ w.spelling ++ "'"
  | name => Kind.identifier.label

end Terminal

end Esql.Syntax
