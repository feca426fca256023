import Esql.CommandLine.Program

/-!
# `Main` — the program

The host of a run on a real system: the local disk, the standard input and the two standard outputs.
-/

namespace Esql.Main

open Esql.Files
open Esql.Report (Channel)
open Esql.CommandLine

/-- The fault that an error of the system stands for. -/
def faultOf : IO.Error → Fault
  | .noFileOrDirectory .. => .notFound
  | .inappropriateType _ 20 _ => .notDirectory
  | .inappropriateType _ 21 _ => .isDirectory
  | .invalidArgument _ 36 _ => .tooLong
  | .invalidArgument _ 40 _ => .tooManyLinks
  | e => .other (toString e)

/-- The answer of an action, or the fault it meets. -/
def attempt {α : Type} (action : IO α) : IO (Except Fault α) := do
  try return .ok (← action) catch e => return .error (faultOf e)

/-- The answer of an action on a path, or the fault it meets. -/
def attemptAt {α : Type} (path : String) (action : String → IO α) : IO (Except Fault α) :=
  if path.contains '\x00' then return .error .nullCharacter else attempt (action path)

/-- Read until so many bytes are there or none are left. -/
partial def readUpTo (read : USize → IO ByteArray) (n : Nat) : IO ByteArray := go ByteArray.empty
where
  go (bytes : ByteArray) : IO ByteArray := do
    if n ≤ bytes.size then return bytes
    let chunk ← read (min 65536 (n - bytes.size)).toUSize
    if chunk.isEmpty then return bytes else go (bytes ++ chunk)

/-- What stands at a path. -/
def find (path : String) : IO Found := do
  let place ← IO.FS.realPath path
  match (← place.metadata).type with
  | .file => return .file
  | .dir => return .directory place.toString
  | _ => return .special

/-- The entries of a directory. -/
def entries (path : String) : IO (List Entry) := do
  let listed ← (← IO.FS.realPath path).readDir
  listed.toList.mapM fun entry => do
    let kind : EntryKind := match (← entry.path.symlinkMetadata).type with
      | .file => .file
      | .dir => .directory
      | .symlink => .link
      | .other => .special
    return ⟨entry.fileName, kind⟩

/-- The local disk. -/
def localDisk : Disk IO where
  find path := attemptAt path find
  entries path := attemptAt path entries
  read path n := attemptAt path fun path => do
    let file ← IO.FS.Handle.mk path .read
    readUpTo file.read n

/-- The local system as the host of a run. -/
def localHost (limits : Limits) (stdin stdout stderr : IO.FS.Stream) : Host IO where
  resolve := resolve localDisk limits
  read := readFile localDisk limits.maxFileSize
  take n := return (← attempt (readUpTo stdin.read n)).mapError Fault.message
  write channel text := do
    let stream := match channel with
      | .output => stdout
      | .error => stderr
    let answer ← attempt do
      stream.putStr text
      stream.flush
    return answer.mapError Fault.message

/-- The name of the variable that may hold the limit on the size of inputs. -/
def limitVariable : String := "ESQL_CHECK_MAX_FILE_SIZE"

/-- How the program is used. -/
def usage : String :=
  "Usage: esql-check [OPTIONS] [INPUT]\n" ++
  "  --files <GLOB>            validate every matching file\n" ++
  "  --json <FIELD>            the query is a field of a JSON document\n" ++
  "  --toml <FIELD>            the query is a dotted key of a TOML document\n" ++
  "  --elastic-dr              the input is a detection rule\n" ++
  "  --output <text|json>      status line format\n" ++
  "  --max-file-size <BYTES>   maximum size of a single input\n" ++
  "  --follow-links            follow symbolic links\n" ++
  "  -v, --verbose             increase verbosity\n" ++
  "  -h, --help                print help\n" ++
  "  -V, --version             print version\n"

/-- What is told about a refusal. -/
def refusalText : Refusal → String
  | .help => usage
  | .version => "esql-check\n"
  | .unknownArgument => "error: unexpected argument\n"
  | .invalidValue => "error: invalid or missing value\n"
  | .tooManyValues => "error: unexpected value\n"
  | .valueValidation => "error: invalid number of bytes\n"
  | .argumentConflict => "error: arguments cannot be used together\n"

end Esql.Main

open Esql Esql.Main Esql.CommandLine in
/-- The program: decode the arguments, run, and end with the code of the result. -/
def main (arguments : List String) : IO UInt32 := do
  let stdin ← IO.getStdin
  let stdout ← IO.getStdout
  let stderr ← IO.getStderr
  match decode (← IO.getEnv limitVariable) arguments with
  | .error refusal =>
    let stream := if refusal.code = 0 then stdout else stderr
    stream.putStr (refusalText refusal)
    return refusal.code.toUInt32
  | .ok command =>
    let host := localHost command.config.limits stdin stdout stderr
    return (exitStatusOf (← execute host command)).code.toUInt32
