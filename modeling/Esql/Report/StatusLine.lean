import Esql.Document.Json.Writer
import Esql.Number.Numeral
import Esql.Report.Verdict

/-!
# `Report.StatusLine` — one line for each input

Each input that is processed has one status line. In the plain style invalid inputs are reported on the
error channel and all others on the output channel; in the JSON style each line is an object and all are on
the output channel.
-/

namespace Esql.Report

/-- The style of status lines. -/
inductive Style where
  | text
  | json
deriving DecidableEq, Repr

/-- Where a line is written. -/
inductive Channel where
  | output
  | error
deriving DecidableEq, Repr

/-- A line, with the line feed at its end, and where it is written. -/
structure StatusLine where
  channel : Channel
  text : String
deriving DecidableEq, Repr

namespace StatusLine

/-- The status line in plain words. -/
def plain (input : String) : Verdict → StatusLine
  | .valid => ⟨.output, input ++ ": ✓ valid\n"⟩
  | .skipped => ⟨.output, input ++ ": skipped (not an ES|QL detection rule)\n"⟩
  | .invalid line column message =>
    ⟨.error, input ++ ":" ++ toString line ++ ":" ++ toString column ++ ": ✗ "
      ++ Syntax.SyntaxError.sentence line column message ++ "\n"⟩

/-- A member of an object whose value is a string. -/
def stringMember (key value : String) : List Char :=
  Document.Json.quoted key ++ ':' :: Document.Json.quoted value

/-- A member of an object whose value is a number. -/
def numberMember (key : String) (value : Nat) : List Char :=
  Document.Json.quoted key ++ ':' :: Number.decimal value

/-- The members that tell a verdict. -/
def verdictMembers : Verdict → List (List Char)
  | .valid => [stringMember "status" "valid"]
  | .skipped => [stringMember "status" "skipped"]
  | .invalid line column message =>
    [stringMember "status" "invalid", numberMember "line" line, numberMember "column" column,
      stringMember "message" message]

/-- The status line as an object without blanks. -/
def object (input : String) (verdict : Verdict) : StatusLine :=
  let members := stringMember "input" input :: verdictMembers verdict
  ⟨.output, String.ofList ('\x7b' :: List.intercalate [','] members ++ ['\x7d', '\n'])⟩

end StatusLine

/-- The status line of an input. -/
def statusLine : Style → String → Verdict → StatusLine
  | .text => StatusLine.plain
  | .json => StatusLine.object

end Esql.Report
