import Esql.CommandLine.Arguments
import Esql.Run.Validate

/-!
# `CommandLine.Program` — the command

The command is a run whose failure, if there is one, is told on the error channel.
-/

namespace Esql.CommandLine

open Esql.Report (Outcome)

/-- The line that tells a failure. -/
def failureLine (failure : Failure) : String := "error: " ++ failure.message ++ "\n"

/-- Run a command and tell its failure. -/
def execute [Diagnostics] {m : Type → Type} [Monad m] (host : Host m) (command : Command) :
    m (Except Failure Outcome) := do
  let result ← run host command.config
  if let .error failure := result then
    -- The run is over, so nothing is left to be done about a line that cannot be written.
    let _ ← host.write .error (failureLine failure)
  return result

/-- Run a command in a session. -/
def executeIn [Diagnostics] (session : Session) (files : FileSource) (command : Command) :
    Except Failure Outcome × Session :=
  execute (Session.host files) command session

end Esql.CommandLine
