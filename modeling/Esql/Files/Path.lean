/-!
# `Files.Path` — the parts of a path

A path is a text of names between slashes. It leads through the names from left to right; a name that is
empty or a single dot leads nowhere, except that a path which begins with a slash begins at the root and a
path which begins with a dot begins at the current directory.

`trail` lists a path and the paths above it, so that the length of the trail is the number of steps of the
path (`depth`) and its tail holds the paths that lead to a directory above (`above`).
-/

namespace Esql.Files.Path

/-- The texts between the slashes of a path. -/
def names (path : String) : List (List Char) := path.toList.splitOn '/'

/-- A path begins at the root if it begins with a slash. -/
def isAbsolute (path : String) : Bool := path.toList.head? == some '/'

/-- A name, anywhere but at the start of a path, that leads nowhere. -/
def isIdle (name : List Char) : Bool := name == [] || name == ['.']

/-- Names with slashes between them. -/
def joined (names : List (List Char)) : String := String.ofList (List.intercalate ['/'] names)

/-- The path through the first name and then the others, and the paths above it. The others are given with
the last one first. -/
def trailFrom (first : List Char) : List (List Char) → List String
  | [] => [if first.isEmpty then "/" else String.ofList first]
  | last :: others =>
    if isIdle last then trailFrom first others
    else joined (first :: (last :: others).reverse) :: trailFrom first others

/-- A path, less what leads nowhere at its end, and the paths above it, the nearest first. -/
def trail (path : String) : List String :=
  match names path with
  | [] | [[]] => []
  | first :: others => trailFrom first others.reverse

/-- The number of steps of a path. -/
def depth (path : String) : Nat := (trail path).length

/-- The paths above a path, the nearest first. -/
def above (path : String) : List String := (trail path).tail

/-- The path of an entry of a directory. -/
def child (directory name : String) : String :=
  if directory.toList.getLast? == some '/' then directory ++ name else directory ++ "/" ++ name

/-! ## Slashes and dots that lead nowhere -/

example : trail "//x/./y//" = ["//x/./y", "//x", "/"] := by decide +kernel

example : trail "./x" = ["./x", "."] ∧ trail "/" = ["/"] ∧ trail "" = [] := by decide +kernel

example : depth "a/./b/" = 2 ∧ depth "../a" = 2 ∧ depth "/a" = 2 ∧ above "a" = [] := by decide +kernel

end Esql.Files.Path
