import Esql.Text.Blank
import Esql.Syntax.Error

/-!
# `Syntax.Trivia` — what stands between two tokens

Blanks, comments from `//` to the end of the line, and comments from `/*` to the first `*/`. They are
walked over in one pass, character by character: `Surrounding` remembers what the walk is inside of. A
comment that is never closed is refused where it opens, with all the text from there.
-/

namespace Esql.Syntax

open Esql.Text (Position isBlank)

/-- What a walk over trivia is inside of. -/
inductive Surrounding where
  | nothing
  | lineComment
  /-- A comment that was opened at `start`, where the text went on as in `whole`. -/
  | blockComment (start : Position) (whole : List Char)

/-- The place behind all trivia at the start of `cs`, where `p` is the place of `cs`. -/
def skipTrivia : Surrounding → Position → List Char → Except SyntaxError Cursor
  | .nothing, p, [] => .ok ⟨p, []⟩
  | .nothing, p, '/' :: '/' :: rest =>
    skipTrivia .lineComment ((p.advance '/').advance '/') rest
  | .nothing, p, '/' :: '*' :: rest =>
    skipTrivia (.blockComment p ('/' :: '*' :: rest)) ((p.advance '/').advance '*') rest
  | .nothing, p, c :: rest =>
    if isBlank c then skipTrivia .nothing (p.advance c) rest else .ok ⟨p, c :: rest⟩
  | .lineComment, p, [] => .ok ⟨p, []⟩
  | .lineComment, p, c :: rest =>
    -- The line feed that ends the comment is a blank itself.
    skipTrivia (if c = '\n' then .nothing else .lineComment) (p.advance c) rest
  | .blockComment start whole, _, [] => .error ⟨start, .unrecognised whole⟩
  | .blockComment _ _, p, '*' :: '/' :: rest =>
    skipTrivia .nothing ((p.advance '*').advance '/') rest
  | .blockComment start whole, p, c :: rest =>
    skipTrivia (.blockComment start whole) (p.advance c) rest

end Esql.Syntax
