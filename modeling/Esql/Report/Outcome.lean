import Esql.Failure
import Esql.Report.Verdict

/-!
# `Report.Outcome` — the result of a run

An outcome counts the inputs of a run and keeps the first one that is invalid. `Outcome.record` adds the
verdict on one input to it.
-/

namespace Esql.Report

/-- An invalid input and what is wrong with it. -/
structure Rejection where
  input : String
  reason : String
deriving DecidableEq, Repr

/-- The result of a run. -/
structure Outcome where
  /-- Some input is invalid. -/
  overallFailed : Bool := false
  firstFailure : Option Rejection := none
  /-- The number of inputs that were processed, whatever was found. -/
  checked : Nat := 0
  valid : Nat := 0
  skipped : Nat := 0
deriving DecidableEq, Repr

namespace Outcome

/-- The outcome after one more input. -/
def record (outcome : Outcome) (input : String) (verdict : Verdict) : Outcome :=
  let outcome := { outcome with checked := outcome.checked + 1 }
  match verdict with
  | .valid => { outcome with valid := outcome.valid + 1 }
  | .skipped => { outcome with skipped := outcome.skipped + 1 }
  | .invalid line column message =>
    let rejection := ⟨input, Syntax.SyntaxError.sentence line column message⟩
    { outcome with
      overallFailed := true
      firstFailure := outcome.firstFailure <|> some rejection }

/-- The class of an outcome. -/
def exitStatus (outcome : Outcome) : ExitStatus :=
  if outcome.overallFailed then .validationFailure else .success

end Outcome

end Esql.Report
