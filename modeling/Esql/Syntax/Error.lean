import Esql.Syntax.Token

/-!
# `Syntax.Error` — why a statement is refused

A refusal is a place and a cause. The cause is data; its wording is in one function, `Cause.message`, and
`SyntaxError.display` puts the place in front of it.
-/

namespace Esql.Syntax

open Esql.Text (Position)

/-- Why a statement is refused. -/
inductive Cause where
  /-- No token has this form. -/
  | unrecognised (text : List Char)
  /-- A token stands where one of these was expected. -/
  | mismatched (found : String) (expected : List Terminal)
  /-- An opener would exceed the nesting that is allowed. -/
  | tooDeep (limit : Nat) (opener : String)
deriving DecidableEq, Repr

/-- The names of what was expected: each once, in the order in which they were tried. -/
def labels (expected : List Terminal) : List String := (expected.map Terminal.label).eraseDups

/-- The wording of a cause. -/
def Cause.message : Cause → String
  | unrecognised text => "token recognition error at: '" ++ String.ofList text ++ "'"
  | mismatched found expected =>
    match labels expected with
    | [] => "no viable alternative at input '" ++ found ++ "'"
    | [one] => "mismatched input '" ++ found ++ "' expecting " ++ one
    | many =>
      "mismatched input '" ++ found ++ "' expecting \x7b" ++ String.intercalate ", " many ++ "\x7d"
  | tooDeep limit opener =>
    "expression nested deeper than " ++ toString limit ++ " levels at input '" ++ opener ++ "'"

/-- The first fault of a statement. -/
structure SyntaxError where
  position : Position
  cause : Cause
deriving DecidableEq, Repr

namespace SyntaxError

/-- The wording of the cause. -/
def message (e : SyntaxError) : String := e.cause.message

/-- The wording of a fault whose place and message are known. -/
def sentence (line column : Nat) (message : String) : String :=
  "Syntax error at line " ++ toString line ++ ":" ++ toString column ++ " - " ++ message ++ "."

/-- The place and the wording of a fault. -/
def display (e : SyntaxError) : String := sentence e.position.line e.position.column e.message

end SyntaxError

end Esql.Syntax
