/-!
# `Files.Glob` — patterns for paths

A pattern is compared with the whole text of a path. `?` stands for one character and `*` for any run of
characters, `[…]` for one character of a set and `[!…]` for one that is not in it; none of these crosses a
slash. `**` is a whole name of a path and stands for any number of names; at the end of a pattern it stands
for everything. All else stands for itself, and there is no escape.

## Contents
- `Piece`, the parts of a pattern, and `GlobError` with its wording;
- `parse`, from the text of a pattern to its pieces;
- `accepts`, whether a path matches, found for all suffixes of the path at once.
-/

namespace Esql.Files

/-- What is wrong with a pattern. -/
inductive GlobFault where
  /-- There are three or more stars in a row. -/
  | stars
  /-- Two stars are not a whole name. -/
  | partialName
  /-- A set is empty or is not closed. -/
  | set
deriving DecidableEq, Repr

/-- The wording of a fault. -/
def GlobFault.message : GlobFault → String
  | stars => "wildcards are either regular `*` or recursive `**`"
  | partialName => "recursive wildcards must form a single path component"
  | set => "invalid range pattern"

/-- A fault and the index of the character at which it is reported. -/
structure GlobError where
  index : Nat
  fault : GlobFault
deriving DecidableEq, Repr

/-- The wording of an error. -/
def GlobError.message (e : GlobError) : String :=
  "Pattern syntax error near position " ++ toString e.index ++ ": " ++ e.fault.message

namespace Glob

/-- A part of a pattern. -/
inductive Piece where
  | char (c : Char)
  | anyChar
  /-- One character from one of these ranges, both ends of which belong to it. -/
  | oneOf (ranges : List (Char × Char))
  /-- One character from none of these ranges. -/
  | noneOf (ranges : List (Char × Char))
  /-- Characters inside a name. -/
  | anyRun
  /-- Whole names. -/
  | anyNames
deriving DecidableEq, Repr

/-! ## Reading a pattern -/

/-- The ranges of a set. -/
def ranges : List Char → List (Char × Char)
  | first :: '-' :: last :: rest => (first, last) :: ranges rest
  | c :: rest => (c, c) :: ranges rest
  | [] => []

/-- The members of a set, of which there is at least one, and what follows the bracket behind them. -/
def members? : List Char → Option (List (Char × Char) × List Char)
  | [] => none
  | first :: rest =>
    match rest.dropWhile (· ≠ ']') with
    | [] => none
    | _ :: after => some (ranges (first :: rest.takeWhile (· ≠ ']')), after)

/-- The set behind an opening bracket, and what follows it. -/
def set? : List Char → Option (Piece × List Char)
  | '!' :: rest => (members? rest).map fun (ranges, after) => (.noneOf ranges, after)
  | rest => (members? rest).map fun (ranges, after) => (.oneOf ranges, after)

/-- The pieces of a text of at most `n` characters that begins at some index of the pattern, behind the
character `before`. -/
def pieces : Nat → Nat → Option Char → List Char → Except GlobError (List Piece)
  | 0, _, _, _ | _, _, _, [] => .ok []
  | n + 1, index, before, c :: rest =>
    match c with
    | '?' => (pieces n (index + 1) (some c) rest).map (.anyChar :: ·)
    | '*' =>
      match rest with
      | '*' :: '*' :: _ => .error ⟨index + 2, .stars⟩
      | '*' :: after =>
        if before ∈ [none, some '/'] then
          match after with
          | [] => .ok [.anyNames]
          | '/' :: after => (pieces n (index + 3) (some '/') after).map (.anyNames :: ·)
          | _ => .error ⟨index + 2, .partialName⟩
        else .error ⟨index - 1, .partialName⟩
      | _ => (pieces n (index + 1) (some c) rest).map (.anyRun :: ·)
    | '[' =>
      match set? rest with
      | none => .error ⟨index, .set⟩
      | some (set, after) =>
        (pieces n (index + 1 + (rest.length - after.length)) (some ']') after).map (set :: ·)
    | _ => (pieces n (index + 1) (some c) rest).map (.char c :: ·)

/-- The pieces of a pattern. -/
def parse (pattern : String) : Except GlobError (List Piece) :=
  pieces pattern.toList.length 0 none pattern.toList

/-! ## Comparing a path with a pattern -/

/-- A character lies in one of the ranges. -/
def inRanges (ranges : List (Char × Char)) (c : Char) : Bool :=
  ranges.any fun (first, last) => first ≤ c && c ≤ last

/-- The characters that a piece stands for if it stands for one. -/
def Piece.isChar : Piece → Char → Bool
  | char c', c => c = c'
  | anyChar, c => c ≠ '/'
  | oneOf ranges, c => c ≠ '/' && inRanges ranges c
  | noneOf ranges, c => c ≠ '/' && !inRanges ranges c
  | anyRun, _ | anyNames, _ => false

/-- Of each suffix of a text, the longest first: a character that passes a test stands in front of an
accepted suffix. `accepted` says which suffixes are. -/
def afterOne (test : Char → Bool) : List Char → List Bool → List Bool
  | c :: cs, _ :: accepted => (test c && accepted.headD false) :: afterOne test cs accepted
  | _, _ => [false]

/-- Of each suffix of a text: characters that pass a test stand in front of an accepted suffix. -/
def afterRun (test : Char → Bool) : List Char → List Bool → List Bool
  | c :: cs, now :: accepted =>
    let later := afterRun test cs accepted
    (now || (test c && later.headD false)) :: later
  | _, accepted => accepted

/-- Which suffixes of a text, the longest first, a row of pieces stands for. -/
def suffixes (text : List Char) : List Piece → List Bool
  | [] => text.map (fun _ => false) ++ [true]
  | [.anyNames] => text.map (fun _ => true) ++ [true]
  | .anyRun :: rest => afterRun (· ≠ '/') text (suffixes text rest)
  | .anyNames :: rest =>
    -- Either no name is taken, or all up to some slash.
    let accepted := suffixes text rest
    List.zipWith (· || ·) accepted (afterRun (fun _ => true) text (afterOne (· = '/') text accepted))
  | piece :: rest => afterOne piece.isChar text (suffixes text rest)

/-- A path matches a row of pieces. -/
def accepts (pieces : List Piece) (path : String) : Bool :=
  (suffixes path.toList pieces).headD false

/-! ## Patterns and paths -/

example :
    parse "x/**/[!a-c]?*" =
      .ok [.char 'x', .char '/', .anyNames, .noneOf [('a', 'c')], .anyChar, .anyRun] := rfl

example : parse "a**/b" = .error ⟨0, .partialName⟩ := rfl

example : parse "**b" = .error ⟨2, .partialName⟩ := rfl

example : (parse "**/*.q").map (accepts · "a/b/.q") = .ok true := rfl

example : (parse "a*.q").map (accepts · "a/b.q") = .ok false := rfl

end Glob

end Esql.Files
