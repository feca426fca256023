/-!
# `Files.Disk` — the view of a file system

What discovery and reading ask of a file system: what stands at a path, which entries a directory has, and
the first bytes of a file. `m` is the monad in which the system is looked at, so that the same walk runs on
a tree that is a value and on a disk.
-/

namespace Esql.Files

/-- Why the system refuses an operation. -/
inductive Fault where
  | notFound
  | notDirectory
  | isDirectory
  /-- A name, or a whole path, has too many bytes. -/
  | tooLong
  /-- Too many links lead one to the next. -/
  | tooManyLinks
  /-- A path holds a character that no path can hold. -/
  | nullCharacter
  | other (text : String)
deriving DecidableEq, Repr

/-- The wording of a fault. -/
def Fault.message : Fault → String
  | notFound => "No such file or directory (os error 2)"
  | notDirectory => "Not a directory (os error 20)"
  | isDirectory => "Is a directory (os error 21)"
  | tooLong => "File name too long (os error 36)"
  | nullCharacter => "file name contained an unexpected NUL byte"
  | tooManyLinks => "Too many levels of symbolic links (os error 40)"
  | other text => text

/-- What a path leads to when every link on it is followed. -/
inductive Found where
  | file
  /-- A directory, and the path that leads to it from the root without a link or a dot. Two paths lead to one
  directory if and only if these are equal. -/
  | directory (place : String)
  /-- A device, a pipe or a socket. -/
  | special
deriving DecidableEq, Repr

/-- What an entry of a directory is, a link being followed nowhere. -/
inductive EntryKind where
  | file
  | directory
  | link
  /-- A device, a pipe or a socket. -/
  | special
deriving DecidableEq, Repr

/-- An entry of a directory. -/
structure Entry where
  name : String
  kind : EntryKind
deriving DecidableEq, Repr

/-- A file system as it is seen from some current directory. -/
structure Disk (m : Type → Type) where
  /-- What stands at a path. -/
  find : String → m (Except Fault Found)
  /-- The entries of the directory at a path, in any order. -/
  entries : String → m (Except Fault (List Entry))
  /-- The content of the file at a path, cut after a number of bytes. -/
  read : String → Nat → m (Except Fault ByteArray)

end Esql.Files
