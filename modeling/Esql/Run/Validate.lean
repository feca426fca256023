import Esql.Report.Outcome
import Esql.Run.Config
import Esql.Run.Host

/-!
# `Run.Validate` — a run

A run takes its inputs from a single source, finds the query in each, checks it, writes a status line and
records the verdict. All patterns are resolved before the first file is read, and the first invalid file
ends the run: no later file is read. A failure ends the run at once.

The run is written over any `Host`; `Session.run` runs it in a session.
-/

namespace Esql

open Esql.Report (Outcome Verdict statusLine)

variable {m : Type → Type} [Monad m]

/-- The verdict on the content of an input. -/
def Config.judge [Diagnostics] (config : Config) (input : String) (content : ByteArray) : Except Failure Verdict :=
  match config.format.extract content with
  | .error cause => .error (.extraction input cause)
  | .ok .skip => .ok .skipped
  | .ok (.extracted query) => .ok (.ofStatement query)

/-- Write the status line of an input. -/
def Host.report (host : Host m) (config : Config) (input : String) (verdict : Verdict) :
    ExceptT Failure m Unit := do
  let line := statusLine config.style input verdict
  match ← host.write line.channel line.text with
  | .ok () => return
  | .error reason => throw (.unexpected reason)

/-- The outcome after the content of one more input is judged and reported. -/
def Host.process [Diagnostics] (host : Host m) (config : Config) (outcome : Outcome) (input : String)
    (content : ByteArray) : ExceptT Failure m Outcome := do
  let verdict ← config.judge input content
  host.report config input verdict
  return outcome.record input verdict

/-- Process files one after the other, up to the first invalid one. -/
def Host.processFiles [Diagnostics] (host : Host m) (config : Config) :
    Outcome → List String → ExceptT Failure m Outcome
  | outcome, [] => return outcome
  | outcome, path :: paths => do
    let content ← ExceptT.mk (host.read path)
    let outcome ← host.process config outcome path content
    if outcome.overallFailed then return outcome else host.processFiles config outcome paths

/-- A run. -/
def run [Diagnostics] (host : Host m) (config : Config) : ExceptT Failure m Outcome := do
  match ← config.source with
  | .files patterns =>
    let paths ← patterns.mapM fun pattern => ExceptT.mk (host.resolve pattern)
    host.processFiles config {} paths.flatten
  | .literal text => host.process config {} literalLabel text.toUTF8
  | .stdin =>
    let limit := config.limits.maxFileSize
    let content ← Files.bounded stdinLabel limit (← host.take (Files.bytesToTake limit))
    host.process config {} stdinLabel content

/-- A run in a session: its outcome or failure, and the session after it. -/
def Session.run [Diagnostics] (session : Session) (files : FileSource) (config : Config) :
    Except Failure Outcome × Session :=
  (Esql.run (Session.host files) config).run session

/-- The class of the end of a run. -/
def exitStatusOf : Except Failure Outcome → ExitStatus
  | .ok outcome => outcome.exitStatus
  | .error failure => failure.exitStatus

end Esql
