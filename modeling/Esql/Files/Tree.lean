import Esql.Files.Disk
import Esql.Files.Path

/-!
# `Files.Tree` — a file system that is a value

A tree of files, directories and symbolic links, and the file system that it is (`Tree.disk`).

A path is followed name by name. An empty name and a single dot stay in a directory and two dots lead to the
directory above, which for the root is the root. A link is replaced by the names of its target, which begin
at the root if the target does and else at the directory that holds the link; at most `maxLinks` links are
followed on one path.

A spot keeps the directories that lead to it, so a change there is a change of each of them.

## Contents
- `Node`, what a name stands for;
- `Spot`, a place in a tree, and `follow`, the spot to which names lead;
- `Spot.add`, `Spot.makeDirectories` and `Spot.write`, changes at a spot;
- `Tree`, with `Tree.make` to build one, and `Tree.disk`.
-/

namespace Esql.Files

/-- What a name in a directory stands for. -/
inductive Node where
  | file (content : ByteArray)
  | directory (entries : List (String × Node))
  | link (target : String)

namespace Node

/-- The directory without entries. -/
def empty : Node := directory []

/-- The entries of a node; only a directory has any. -/
def entries : Node → List (String × Node)
  | directory entries => entries
  | file _ | link _ => []

/-- The entry with a name. -/
def get? (node : Node) (name : String) : Option Node :=
  (node.entries.find? fun entry => entry.1 == name).map (·.2)

/-- Entries in which a name stands for a node. -/
def bind (name : String) (node : Node) : List (String × Node) → List (String × Node)
  | [] => [(name, node)]
  | entry :: entries =>
    if entry.1 == name then (name, node) :: entries else entry :: bind name node entries

end Node

/-! ## Following a path -/

/-- The most bytes that a name may have. -/
def maxNameBytes : Nat := 255

/-- The most bytes that a path may have. -/
def maxPathBytes : Nat := 4095

/-- The number of links that are followed on one path. -/
def maxLinks : Nat := 40

/-- A node of a tree, and the directories that lead to it from the root: the nearest one first, each with
the name that is taken in it. -/
structure Spot where
  node : Node
  way : List (String × Node)

namespace Spot

/-- The directory that holds a node; the root holds itself. -/
def up (spot : Spot) : Spot :=
  match spot.way with
  | [] => spot
  | (_, directory) :: way => ⟨directory, way⟩

/-- The root of the tree. -/
def root (spot : Spot) : Spot :=
  match spot.way.getLast? with
  | none => spot
  | some (_, directory) => ⟨directory, []⟩

/-- The entry with a name. -/
def child? (spot : Spot) (name : String) : Option Spot :=
  (spot.node.get? name).map (⟨·, (name, spot.node) :: spot.way⟩)

/-- The entry with a name, or why there is none. -/
def enter (spot : Spot) (name : String) : Except Fault Spot :=
  if maxNameBytes < name.utf8ByteSize then .error .tooLong
  else
    match spot.child? name with
    | some next => .ok next
    | none => .error .notFound

/-- The path from the root to a spot. -/
def place (spot : Spot) : String := "/" ++ String.intercalate "/" (spot.way.map (·.1)).reverse

/-- Where a path begins that is followed from a spot. -/
def start (spot : Spot) (path : String) : Spot := if Path.isAbsolute path then spot.root else spot

/-- The spot to which names lead; `expand` continues at a link with its directory, its target and the names
behind it. -/
def walk (expand : Spot → String → List (List Char) → Except Fault Spot) :
    Spot → List (List Char) → Except Fault Spot
  | spot, [] => .ok spot
  | spot, name :: names =>
    match spot.node with
    | .file _ | .link _ => .error .notDirectory
    | .directory _ =>
      if Path.isIdle name then walk expand spot names
      else if name = ['.', '.'] then walk expand spot.up names
      else
        match spot.enter (String.ofList name) with
        | .error fault => .error fault
        | .ok next =>
          match next.node with
          | .link target => expand spot target names
          | .file _ | .directory _ => walk expand next names

/-- The spot to which names lead over at most so many links. -/
def follow : Nat → Spot → List (List Char) → Except Fault Spot
  | 0 => walk fun _ _ _ => .error .tooManyLinks
  | links + 1 => walk fun spot target names =>
      follow links (spot.start target) (Path.names target ++ names)

/-! ## Changes -/

/-- The directories that lead to a node after the node has been changed. -/
def rebuilt (node : Node) : List (String × Node) → List (String × Node)
  | [] => []
  | (name, directory) :: way =>
    let directory := Node.directory (Node.bind name node directory.entries)
    (name, directory) :: rebuilt directory way

/-- Put an entry into a directory, and go there. -/
def add (spot : Spot) (name : String) (node : Node) : Spot :=
  let directory := Node.directory (Node.bind name node spot.node.entries)
  ⟨node, (name, directory) :: rebuilt directory spot.way⟩

/-- Go where names lead; a directory that is missing is made. -/
def makeDirectories : Spot → List (List Char) → Except Fault Spot
  | spot, [] => .ok spot
  | spot, name :: names =>
    match spot.follow maxLinks [name], spot.child? (String.ofList name) with
    | .error .notFound, none => makeDirectories (spot.add (String.ofList name) .empty) names
    | .error fault, _ => .error fault
    | .ok next, _ => makeDirectories next names

/-- Write the content of a file in a directory, through at most so many links. -/
def write (content : ByteArray) : Nat → Spot → String → Except Fault Spot
  | links, spot, name =>
    match spot.enter name with
    | .error .notFound => .ok (spot.add name (.file content))
    | .error fault => .error fault
    | .ok next =>
      match next.node, links with
      | .file _, _ => .ok (spot.add name (.file content))
      | .directory _, _ => .error .isDirectory
      | .link _, 0 => .error .tooManyLinks
      | .link target, links + 1 => do
        let names := Path.names target
        let directory ← (spot.start target).follow maxLinks names.dropLast
        write content links directory (String.ofList (names.getLast?.getD []))

end Spot

/-! ## The file system -/

/-- A file system and its current directory. -/
structure Tree where
  current : Spot

/-- What can be made in a tree. -/
inductive Made where
  | directory
  | file (content : ByteArray)
  | link (target : String)

namespace Tree

/-- The tree without entries. -/
def empty : Tree := ⟨⟨.empty, []⟩⟩

/-- The spot to which a path leads. -/
def spot (tree : Tree) (path : String) : Except Fault Spot :=
  if path.toList.contains '\x00' then .error .nullCharacter
  else if path.isEmpty then .error .notFound
  else if maxPathBytes < path.utf8ByteSize then .error .tooLong
  else (tree.current.start path).follow maxLinks (Path.names path)

/-- The tree with another current directory. -/
def enter (tree : Tree) (path : String) : Except Fault Tree := (tree.spot path).map Tree.mk

/-- The tree after something has been made at a path, with the directories above it that are missing. A link
is made only where nothing stands. -/
def make (tree : Tree) (path : String) (made : Made) : Except Fault Tree := do
  let names := (Path.names path).filter fun name => !Path.isIdle name
  let directory ← (tree.current.start path).makeDirectories names.dropLast
  let name := names.getLast?.getD []
  let changed ← match made with
    | .directory => directory.makeDirectories [name]
    | .file content => directory.write content maxLinks (String.ofList name)
    | .link target =>
      match directory.enter (String.ofList name) with
      | .error .notFound => .ok (directory.add (String.ofList name) (.link target))
      | .error fault => .error fault
      | .ok standing => .ok standing
  (Tree.mk changed.root).enter tree.current.place

/-- What stands at a spot to which a path leads. -/
def found (spot : Spot) : Found :=
  match spot.node with
  | .file _ => .file
  | .directory _ => .directory spot.place
  -- No path leads to a link, for links are followed.
  | .link _ => .special

/-- An entry of a directory. -/
def entryOf : String × Node → Entry
  | (name, .file _) => ⟨name, .file⟩
  | (name, .directory _) => ⟨name, .directory⟩
  | (name, .link _) => ⟨name, .link⟩

/-- The entries of a directory. -/
def list (spot : Spot) : Except Fault (List Entry) :=
  match spot.node with
  | .directory entries => .ok (entries.map entryOf)
  | .file _ | .link _ => .error .notDirectory

/-- The first bytes of a file. -/
def take (limit : Nat) (spot : Spot) : Except Fault ByteArray :=
  match spot.node with
  | .file content => .ok (content.extract 0 limit)
  | .directory _ => .error .isDirectory
  | .link _ => .error .tooManyLinks

/-- The file system that a tree is. -/
def disk (tree : Tree) : Disk Id where
  find path := (tree.spot path).map found
  entries path := (tree.spot path).bind list
  read path limit := (tree.spot path).bind (take limit)

end Tree

end Esql.Files
