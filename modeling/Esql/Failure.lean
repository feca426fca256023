import Esql.Extraction
import Esql.Files.Glob

/-!
# `Failure` — what ends a run without an outcome

A failure is a cause, and it names the input on which it happened. Its wording is in one function,
`Failure.message`, and its class is the exit status of the run. A statement that is refused is no failure:
it is what a run is there to find.
-/

namespace Esql

open Esql.Files (GlobError)

/-- What ends a run without an outcome. -/
inductive Failure where
  /-- The run is given a literal and also patterns for files. -/
  | ambiguous (literal : String)
  /-- The system refuses an operation on an input. -/
  | io (input reason : String)
  /-- An input holds no query. -/
  | extraction (input : String) (cause : ExtractionError)
  | invalidPattern (pattern : String) (cause : GlobError)
  | tooLarge (input : String) (limit : UInt64)
  /-- A status line cannot be written. -/
  | unexpected (reason : String)
deriving DecidableEq, Repr

/-- The class of the end of a run. -/
inductive ExitStatus where
  /-- Every input is valid or skipped. -/
  | success
  /-- A statement is refused. -/
  | validationFailure
  | usageError
  | ioFailure
  /-- A document is malformed or has no query, or a text is not encoded as it should be. -/
  | inputFormatError
  | runtimeError
  | unexpectedError
deriving DecidableEq, Repr

/-- The code with which a program ends. -/
def ExitStatus.code : ExitStatus → UInt8
  | success => 0
  | validationFailure => 1
  | usageError => 2
  | ioFailure => 10
  | inputFormatError => 11
  | runtimeError => 90
  | unexpectedError => 99

namespace Failure

/-- The wording of a failure. -/
def message : Failure → String
  | ambiguous literal => "cannot combine positional argument '" ++ literal ++ "' with --files"
  | io input reason => "I/O error on " ++ input ++ ": " ++ reason
  | extraction input cause => input ++ ": " ++ cause.message
  | invalidPattern pattern cause => "invalid glob pattern '" ++ pattern ++ "': " ++ cause.message
  | tooLarge input limit =>
    input ++ ": exceeds maximum size of " ++ toString limit.toNat ++ " bytes"
  | unexpected reason => reason

/-- The class of a failure. -/
def exitStatus : Failure → ExitStatus
  | ambiguous _ => .usageError
  | io .. => .ioFailure
  | extraction .. => .inputFormatError
  | invalidPattern .. | tooLarge .. => .runtimeError
  | unexpected _ => .unexpectedError

end Failure

end Esql
