import Esql.Failure
import Esql.Files.Disk
import Esql.Files.Path

/-!
# `Files.Resolve` — the files that match a pattern

A pattern is resolved by a walk through the directories below some root, and every file that is met is
compared with the pattern by the text of its path. The walk begins at the nearest directory above the
pattern that exists, with wildcards taken as they are written; where there is none it begins at the root for
an absolute pattern, and else at the current directory, whose paths are then shown without their `./`. It
goes no deeper than a match can be.

The entries of a directory are visited in the order of their names, each directory followed by what is below
it. A link to a file counts as a file. A link to a directory is followed only if the limits say so, and then
a link that leads nowhere, or back to a directory in which the walk is, ends the walk.

## Contents
- `Limits`;
- `WalkError` with its wording, and `filesBelow`, the walk;
- `walkRoot` and `walkDepth`;
- `resolve`.
-/

namespace Esql.Files

variable {m : Type → Type} [Monad m]

/-- The limits of discovery and reading. -/
structure Limits where
  /-- The most bytes that an input may have. -/
  maxFileSize : UInt64 := 10485760
  /-- Links to directories are followed. -/
  followLinks : Bool := false
  /-- The most steps below the root of a walk. -/
  maxDepth : Nat := 64
deriving DecidableEq, Repr

/-! ## The walk -/

/-- Why a walk ends early. -/
inductive WalkError where
  | unreadable (path : String) (fault : Fault)
  /-- A link leads back to a directory in which the walk is. -/
  | cycle (path ancestor : String)
deriving DecidableEq, Repr

namespace WalkError

/-- The path on which a walk ends. -/
def path : WalkError → String
  | unreadable path _ | cycle path _ => path

/-- The wording of an error. -/
def message : WalkError → String
  | unreadable path fault => "IO error for operation on " ++ path ++ ": " ++ fault.message
  | cycle path ancestor => "File system loop found: " ++ path ++ " points to an ancestor " ++ ancestor

end WalkError

/-- The nearest of the directories in which a walk is that is the one at some place. -/
def ancestorAt? (disk : Disk m) (place : String) : List String → m (Option String)
  | [] => pure none
  | path :: outer => do
    match ← disk.find path with
    | .ok (.directory other) => if other == place then pure (some path) else ancestorAt? disk place outer
    | _ => ancestorAt? disk place outer

/-- The files at most so many steps below a directory, where `inside` are the paths of the directories in
which the walk is, the nearest and last entered first. -/
def filesBelow (disk : Disk m) (followLinks : Bool) :
    Nat → List String → String → ExceptT WalkError m (List String)
  | 0, _, _ => pure []
  | depth + 1, inside, directory => do
    match ← disk.entries directory with
    | .error fault => throw (.unreadable directory fault)
    | .ok entries =>
      let files ← (entries.mergeSort fun a b => a.name ≤ b.name).mapM fun entry => do
        let path := Path.child directory entry.name
        match entry.kind with
        | .file => pure [path]
        | .special => pure []
        | .directory => filesBelow disk followLinks depth (path :: inside) path
        | .link =>
          match ← disk.find path with
          | .ok .file => pure [path]
          | .ok .special => pure []
          | .ok (.directory place) =>
            if followLinks then
              match ← (ancestorAt? disk place inside : m (Option String)) with
              | some ancestor => throw (.cycle path ancestor)
              | none => filesBelow disk followLinks depth (path :: inside) path
            else pure []
          | .error fault =>
            -- A link that leads nowhere is passed over like any other that is not followed.
            if followLinks then throw (.unreadable path fault) else pure []
      return files.flatten

/-- The files at most so many steps below a path, which may be a file itself. -/
def filesFrom (disk : Disk m) (followLinks : Bool) (depth : Nat) (root : String) :
    ExceptT WalkError m (List String) := do
  match ← disk.find root with
  | .ok .file => pure [root]
  | .ok .special => pure []
  | .ok (.directory _) => filesBelow disk followLinks depth [root] root
  | .error fault => throw (.unreadable root fault)

/-! ## Where a walk begins and how deep it goes -/

/-- Where the walk for a pattern begins. -/
structure WalkRoot where
  path : String
  /-- The walk begins at the current directory because nothing above the pattern exists. -/
  isFallback : Bool
deriving DecidableEq, Repr

/-- The nearest path above a pattern at which something stands, or else the place at which the pattern
begins. -/
def walkRoot (disk : Disk m) (pattern : String) : m WalkRoot := do
  match ← (Path.above pattern).findM? fun path => return (← disk.find path).toBool with
  | some path => return ⟨path, false⟩
  | none => return if Path.isAbsolute pattern then ⟨"/", false⟩ else ⟨".", true⟩

/-- Two stars stand side by side in a text. -/
def hasTwoStars : List Char → Bool
  | '*' :: '*' :: _ => true
  | _ :: rest => hasTwoStars rest
  | [] => false

/-- How many steps below the root of its walk a match can be. Without `**` a match has as many steps as the
pattern. -/
def walkDepth (pattern : String) (root : WalkRoot) (maxDepth : Nat) : Nat :=
  if hasTwoStars pattern.toList then maxDepth
  else min (Path.depth pattern - if root.isFallback then 0 else Path.depth root.path) maxDepth

/-- The path of a file as it is compared and shown. -/
def WalkRoot.shown (root : WalkRoot) (path : String) : String :=
  if root.isFallback then String.ofList (path.toList.drop 2) else path

/-! ## Resolving a pattern -/

/-- The files that match a pattern, in the order of the walk. -/
def resolve (disk : Disk m) (limits : Limits) (pattern : String) : m (Except Failure (List String)) := do
  match Glob.parse pattern with
  | .error cause => return .error (.invalidPattern pattern cause)
  | .ok pieces =>
    let root ← walkRoot disk pattern
    let depth := walkDepth pattern root limits.maxDepth
    match ← filesFrom disk limits.followLinks depth root.path with
    | .error e => return .error (.io e.path e.message)
    | .ok files => return .ok ((files.map root.shown).filter (Glob.accepts pieces))

end Esql.Files
