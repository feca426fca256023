import Esql.Document.Toml

/-!
# `Document.Toml.Assembly` — from statements to tables

The lines of a document say one after another what its tables hold, and a table can be named in several
ways: by a header of its own, in passing by a longer header, or in passing by a dotted key. What may still
be added to a table depends on how it came about, so each table keeps two marks until the document is
complete: that nothing but longer names has mentioned it (`implied`), and that dotted keys have (`dotted`).

A header takes its table out of the document, fills it with the assignments that follow, and puts it back
behind all other entries.

Only when the document is complete is it asked what its tables stand for, since a table whose first entry
makes it a date or time stands for that alone, whatever its other entries are.

## Contents
- `Node` and `Entries`, values as they are written and tables in the making;
- `assign?`, a value under a dotted key;
- `within?`, a change inside the tables that a header names in passing;
- `section?`, a header with its assignments;
- `Node.toValue?`, what a node stands for, and `document?`, a whole document.
-/

namespace Esql.Document.Toml

/-- A value as it is written, or what a key leads to in a table in the making. -/
inductive Node where
  /-- A value that is no array and no table. -/
  | value (v : Toml)
  | array (items : List Node)
  /-- A table that is written inline, to which nothing can be added. -/
  | inlineTable (entries : List (String × Node))
  | table (implied dotted : Bool) (entries : List (String × Node))
  /-- Tables under one header of double brackets: the last one, and those before it with the nearest first. -/
  | tables (last : List (String × Node)) (earlier : List (List (String × Node)))
deriving Repr

/-- A value under a key of one or more parts. -/
structure Assignment where
  path : List String
  value : Node
deriving Repr

/-- What one line of a document says. -/
inductive Statement where
  | assign (assignment : Assignment)
  | header (path : List String)
  | arrayHeader (path : List String)
deriving Repr

/-- A table in the making: its entries in the order in which they were written. -/
abbrev Entries := List (String × Node)

namespace Entries

/-- The node under a key. -/
def get? (entries : Entries) (key : String) : Option Node :=
  (entries.find? fun entry => entry.1 == key).map (·.2)

/-- Put a node in the place of the one under its key, or behind all entries. -/
def put (entries : Entries) (key : String) (node : Node) : Entries :=
  if entries.any fun entry => entry.1 == key then
    entries.map fun entry => if entry.1 == key then (key, node) else entry
  else entries ++ [(key, node)]

/-- The entries with other keys. -/
def erase (entries : Entries) (key : String) : Entries :=
  entries.filter fun entry => entry.1 != key

end Entries

/-! ## Assignments -/

/-- Put a value under a dotted key into a table that is `dotted` or, at the first part of the key, into any
table. The parts before the last lead through tables that are only implied; the one that takes the value
must be dotted. -/
def assign? (value : Node) : List String → Entries → Option Entries
  | [], _ => none
  | [key], entries =>
    match entries.get? key with
    | some _ => none
    | none => some (entries ++ [(key, value)])
  | key :: rest, entries =>
    match entries.get? key with
    | none =>
      (assign? value rest []).map fun inner => entries ++ [(key, .table true true inner)]
    | some (.value _) | some (.array _) | some (.inlineTable _) => none
    | some (.table implied dotted inner) =>
      if implied && (dotted || rest.length ≠ 1) then
        (assign? value rest inner).map fun inner => entries.put key (.table implied dotted inner)
      else none
    | some (.tables last earlier) =>
      if rest.length ≠ 1 then
        (assign? value rest last).map fun last => entries.put key (.tables last earlier)
      else none

/-- Put values under dotted keys, one after another. -/
def assignAll? (assignments : List Assignment) (entries : Entries) : Option Entries :=
  assignments.foldlM (fun entries a => assign? a.value a.path entries) entries

/-! ## Headers -/

/-- Change the table that the parts of a header before its last lead to. They lead through tables of any
kind and into the last of several; a table that is missing is implied. -/
def within? (change : Entries → Option Entries) : List String → Entries → Option Entries
  | [], entries => change entries
  | key :: rest, entries =>
    match entries.get? key with
    | none => (within? change rest []).map fun inner => entries ++ [(key, .table true false inner)]
    | some (.value _) | some (.array _) | some (.inlineTable _) => none
    | some (.table implied dotted inner) =>
      (within? change rest inner).map fun inner => entries.put key (.table implied dotted inner)
    | some (.tables last earlier) =>
      (within? change rest last).map fun last => entries.put key (.tables last earlier)

/-- A table with its header. Only a table that longer headers have implied may be there already. -/
def tableUnder? (key : String) (assignments : List Assignment) (entries : Entries) :
    Option Entries := do
  let inner ←
    match entries.get? key with
    | none => some []
    | some (.table true false inner) => some inner
    | some _ => none
  return entries.erase key ++ [(key, .table false false (← assignAll? assignments inner))]

/-- One more table with its header of double brackets. -/
def tableAmong? (key : String) (assignments : List Assignment) (entries : Entries) :
    Option Entries := do
  let earlier ←
    match entries.get? key with
    | none => some []
    | some (.tables last earlier) => some (last :: earlier)
    | some _ => none
  return entries.put key (.tables (← assignAll? assignments []) earlier)

/-- A header with the assignments that follow it. -/
structure Section where
  array : Bool
  path : List String
  assignments : List Assignment

/-- Add a section to a document. -/
def section? (document : Entries) (s : Section) : Option Entries :=
  match s.path.getLast? with
  | none => none
  | some key =>
    within? ((if s.array then tableAmong? else tableUnder?) key s.assignments) s.path.dropLast document

/-- The table that is written inline with these assignments. -/
def inlineTable? (assignments : List Assignment) : Option Node :=
  (assignAll? assignments []).map .inlineTable

/-! ## What nodes stand for -/

/-- The date or time that a value stands for under the key of dates and times. -/
def Node.dateTime? : Node → Option Toml
  | .value (.string s) => (dateTimeOfString? s).map .dateTime
  | _ => none

mutual

/-- The value that a node stands for. -/
def Node.toValue? : Node → Option Toml
  | .value v => some v
  | .array items => (values? items).map .array
  | .inlineTable entries => tableValue? entries
  | .table _ _ entries => tableValue? entries
  | .tables last earlier => do
    let value ← tableValue? last
    let others ← tableValues? earlier
    return .array (others.reverse ++ [value])

/-- The values that nodes stand for. -/
def values? : List Node → Option (List Toml)
  | [] => some []
  | node :: rest => do
    let value ← node.toValue?
    let others ← values? rest
    return value :: others

/-- The value that a table with these entries stands for. -/
def tableValue? : List (String × Node) → Option Toml
  | [] => some (.table [])
  | (key, node) :: rest =>
    if key = dateTimeKey then node.dateTime?
    else do
      let value ← node.toValue?
      let others ← entryValues? rest
      return .table (sortByKey ((key, value) :: others))

/-- The entries of a table, each with the value that it stands for. -/
def entryValues? : List (String × Node) → Option (List (String × Toml))
  | [] => some []
  | (key, node) :: rest => do
    let value ← node.toValue?
    let others ← entryValues? rest
    return (key, value) :: others

/-- The values that several tables stand for. -/
def tableValues? : List (List (String × Node)) → Option (List Toml)
  | [] => some []
  | entries :: rest => do
    let value ← tableValue? entries
    let others ← tableValues? rest
    return value :: others

end

/-! ## Documents -/

/-- The assignments before the first header, and the sections. -/
def sections : List Statement → List Assignment × List Section
  | [] => ([], [])
  | .assign a :: rest =>
    let (assignments, later) := sections rest
    (a :: assignments, later)
  | .header path :: rest =>
    let (assignments, later) := sections rest
    ([], ⟨false, path, assignments⟩ :: later)
  | .arrayHeader path :: rest =>
    let (assignments, later) := sections rest
    ([], ⟨true, path, assignments⟩ :: later)

/-- The table that the statements of a document describe. It never stands for a date or time. -/
def document? (statements : List Statement) : Option Toml := do
  let (assignments, later) := sections statements
  let root ← assignAll? assignments []
  let entries ← entryValues? (← later.foldlM section? root)
  return table (sortByKey entries)

end Esql.Document.Toml
