import Esql.Files.Bounded
import Esql.Files.Resolve
import Esql.Report.StatusLine

/-!
# `Run.Host` — the surroundings of a run

A run finds and reads files, takes bytes from the standard input and writes status lines. `Host` gives these
as operations in some monad.

A `Session` is a host that is a value: files given by two functions (`FileSource`), the standard input as a
stream, and two sinks that may be full. It records every call for files, how many bytes were taken from the
standard input, and what the sinks kept, so that all of it can be told after the run.
-/

namespace Esql

open Esql.Files (Stream Disk Limits)
open Esql.Report (Channel)

/-- The surroundings of a run. -/
structure Host (m : Type → Type) where
  /-- The files that match a pattern. -/
  resolve : String → m (Except Failure (List String))
  /-- The content of a file. -/
  read : String → m (Except Failure ByteArray)
  /-- At most so many bytes of the standard input, or what it says when it fails. -/
  take : Nat → m (Except String ByteArray)
  /-- Write a text, or tell why it cannot be written. -/
  write : Channel → String → m (Except String Unit)

/-! ## Files as functions -/

/-- Files, found and read without an effect. -/
structure FileSource where
  resolve : String → Except Failure (List String)
  read : String → Except Failure ByteArray

/-- The files of a disk within limits. -/
def FileSource.ofDisk (disk : Disk Id) (limits : Limits) : FileSource where
  resolve := Files.resolve disk limits
  read := Files.readFile disk limits.maxFileSize

/-! ## Sinks -/

/-- What is written to a channel. -/
structure Sink where
  kept : ByteArray := ByteArray.empty
  /-- How many bytes the sink keeps and what it says to the first byte beyond; none if it keeps all. -/
  limit : Option (Nat × String) := none

/-- Write a text to a sink, which keeps as much of it as it can. -/
def Sink.write (sink : Sink) (text : String) : Except String Unit × Sink :=
  let all := sink.kept ++ text.toUTF8
  match sink.limit with
  | none => (.ok (), { sink with kept := all })
  | some (capacity, refusal) =>
    if all.size ≤ capacity then (.ok (), { sink with kept := all })
    else (.error refusal, { sink with kept := all.extract 0 capacity })

/-! ## Sessions -/

/-- A request for files. -/
inductive Call where
  | resolve (pattern : String)
  | read (path : String)
deriving DecidableEq, Repr

/-- The state of a recorded run. -/
structure Session where
  stdin : Stream
  output : Sink := {}
  error : Sink := {}
  /-- The requests for files, in order. -/
  calls : List Call := []
  /-- The number of bytes taken from the standard input. -/
  taken : Nat := 0

namespace Session

/-- The session after a request. -/
def log (session : Session) (call : Call) : Session :=
  { session with calls := session.calls ++ [call] }

/-- Write a text to a channel. -/
def write (session : Session) : Channel → String → Except String Unit × Session
  | .output, text =>
    let (answer, sink) := session.output.write text
    (answer, { session with output := sink })
  | .error, text =>
    let (answer, sink) := session.error.write text
    (answer, { session with error := sink })

/-- The host that records a session over given files. -/
def host (files : FileSource) : Host (StateM Session) where
  resolve pattern session := (files.resolve pattern, session.log (.resolve pattern))
  read path session := (files.read path, session.log (.read path))
  take n session :=
    (session.stdin.take n,
      { session with taken := (Files.firstBytes n session.stdin.chunks).size })
  write channel text session := session.write channel text

end Session

end Esql
