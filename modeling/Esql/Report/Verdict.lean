import Esql.Syntax.Recognizer

/-!
# `Report.Verdict` — what is found about an input

An input is valid, invalid with the place and the message of its first fault, or skipped because it has no
statement to be checked.
-/

namespace Esql.Report

open Esql.Syntax (SyntaxError check)

/-- What is found about an input. -/
inductive Verdict where
  | valid
  | invalid (line column : Nat) (message : String)
  | skipped
deriving DecidableEq, Repr

/-- The verdict on the answer of a check. -/
def Verdict.ofCheck : Except SyntaxError Unit → Verdict
  | .ok () => valid
  | .error e => invalid e.position.line e.position.column e.message

/-- The verdict on a statement. -/
def Verdict.ofStatement (statement : String) : Verdict := ofCheck (check statement)

end Esql.Report
