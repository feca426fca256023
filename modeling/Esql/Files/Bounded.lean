import Esql.Failure
import Esql.Files.Disk

/-!
# `Files.Bounded` — reading no more than is allowed

An input may have a limited number of bytes. At most one byte more than the limit is taken, which is enough
to see that an input is too large, so neither memory nor time depends on how large it is.

## Contents
- `Stream`, bytes that arrive in chunks, and `Stream.take`;
- `bytesToTake` and `withinLimit`;
- `readStream` and `readFile`.
-/

namespace Esql.Files

/-- Bytes that arrive one chunk after the other, and then end or fail. -/
structure Stream where
  chunks : List ByteArray
  /-- What the stream says when it fails behind its last byte. -/
  fault : Option String := none

/-- The first bytes of the concatenation of chunks. -/
def firstBytes : Nat → List ByteArray → ByteArray
  | _, [] => ByteArray.empty
  | n, chunk :: chunks =>
    if n ≤ chunk.size then chunk.extract 0 n else chunk ++ firstBytes (n - chunk.size) chunks

/-- The first bytes of a stream. Only a reader that gets fewer than it asks for meets the end. -/
def Stream.take (stream : Stream) (n : Nat) : Except String ByteArray :=
  let bytes := firstBytes n stream.chunks
  match stream.fault with
  | some fault => if bytes.size < n then .error fault else .ok bytes
  | none => .ok bytes

/-- The number of bytes that are taken from an input with a limit: one more than the limit where that is
still a word. -/
def bytesToTake (limit : UInt64) : Nat := min (limit.toNat + 1) (UInt64.size - 1)

/-- The bytes that are taken from an input, if they are not too many. -/
def withinLimit (input : String) (limit : UInt64) (bytes : ByteArray) : Except Failure ByteArray :=
  if limit.toNat < bytes.size then .error (.tooLarge input limit) else .ok bytes

/-- What is made of the bytes that are taken from an input, or of the fault that is met. -/
def bounded (input : String) (limit : UInt64) : Except String ByteArray → Except Failure ByteArray
  | .error reason => .error (.io input reason)
  | .ok bytes => withinLimit input limit bytes

/-- The whole content of a stream. -/
def readStream (stream : Stream) (input : String) (limit : UInt64) : Except Failure ByteArray :=
  bounded input limit (stream.take (bytesToTake limit))

/-- The whole content of a file. -/
def readFile {m : Type → Type} [Monad m] (disk : Disk m) (limit : UInt64) (path : String) :
    m (Except Failure ByteArray) :=
  return bounded path limit ((← disk.read path (bytesToTake limit)).mapError Fault.message)

end Esql.Files
