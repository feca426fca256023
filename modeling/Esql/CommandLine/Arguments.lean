import Esql.Number.Numeral
import Esql.Run.Config

/-!
# `CommandLine.Arguments` — reading the arguments of the command

The arguments are read from left to right. An argument is an option by its long name, with or without a
value behind an equals sign, or a group of one-letter switches, or else a value: of the option before it if
that one still waits for its value, and else the literal, of which there is at most one. Behind two dashes
everything is a literal.

A value is examined when the next option is met, or the literal, or the end; so of a bad value and an
argument that is unknown, which is refused at once, the latter wins. The limit on the size of inputs may also
come from the environment, and the formats exclude each other; both are examined at the end.

## Contents
- `Refusal`, and the names of options (`Valued`, `Switch`);
- `Given`, what has been given, with `Given.assign` and `Given.turnOn`;
- `Reading`, the state between two arguments, and `Reading.step`;
- `decode`.
-/

namespace Esql.CommandLine

open Esql.Report (Style)

/-- Why the arguments are not a command. -/
inductive Refusal where
  /-- Help is asked for. -/
  | help
  /-- The version is asked for. -/
  | version
  | unknownArgument
  /-- A value is missing or is none of those that are possible. -/
  | invalidValue
  /-- A switch is given a value. -/
  | tooManyValues
  /-- A value is no number of bytes. -/
  | valueValidation
  /-- An option is given twice, or two options exclude each other. -/
  | argumentConflict
deriving DecidableEq, Repr

/-- The code with which the program ends. -/
def Refusal.code : Refusal → UInt8
  | help | version => 0
  | unknownArgument | invalidValue | tooManyValues | valueValidation | argumentConflict => 2

/-! ## Options -/

/-- An option with a value. -/
inductive Valued where
  | files
  | json
  | toml
  | output
  | maxFileSize
deriving DecidableEq, Repr

/-- An option without a value. -/
inductive Switch where
  | detectionRule
  | followLinks
  | verbose
  | help
  | version
deriving DecidableEq, Repr

/-- An option. -/
inductive Opt where
  | valued (option : Valued)
  | switch (switch : Switch)
deriving DecidableEq, Repr

/-- The options and their long names. -/
def longNames : List (String × Opt) :=
  [("files", .valued .files), ("json", .valued .json), ("toml", .valued .toml),
    ("elastic-dr", .switch .detectionRule), ("output", .valued .output),
    ("max-file-size", .valued .maxFileSize), ("follow-links", .switch .followLinks),
    ("verbose", .switch .verbose), ("help", .switch .help), ("version", .switch .version)]

/-- The switches that have a letter. -/
def letters : List (Char × Switch) := [('v', .verbose), ('h', .help), ('V', .version)]

/-- The style that a value names. -/
def style? (value : String) : Option Style :=
  if value = "text" then some .text else if value = "json" then some .json else none

/-- The number of bytes that a value names: digits, perhaps behind a plus sign, that fit into a word. -/
def bytes? (value : String) : Option UInt64 :=
  let digits := match value.toList with
    | '+' :: digits => digits
    | digits => digits
  if digits ≠ [] ∧ digits.all Char.isDigit then
    let n := Number.valueInBase 10 digits
    if n < UInt64.size then some n.toUInt64 else none
  else none

/-! ## What has been given -/

/-- What has been given. -/
structure Given where
  literal : Option String := none
  patterns : List String := []
  json : Option String := none
  toml : Option String := none
  detectionRule : Bool := false
  style : Option Style := none
  maxFileSize : Option UInt64 := none
  followLinks : Bool := false
  /-- How often more words were asked for, up to the largest byte. -/
  verbosity : UInt8 := 0
deriving DecidableEq, Repr

namespace Given

/-- Give an option a value. Only patterns may be given more than once. -/
def assign (given : Given) (option : Valued) (value : String) : Except Refusal Given :=
  match option with
  | .files => .ok { given with patterns := given.patterns ++ [value] }
  | .json =>
    if given.json.isSome then .error .argumentConflict else .ok { given with json := some value }
  | .toml =>
    if given.toml.isSome then .error .argumentConflict else .ok { given with toml := some value }
  | .output =>
    if given.style.isSome then .error .argumentConflict
    else
      match style? value with
      | none => .error .invalidValue
      | style => .ok { given with style := style }
  | .maxFileSize =>
    if given.maxFileSize.isSome then .error .argumentConflict
    else
      match bytes? value with
      | none => .error .valueValidation
      | limit => .ok { given with maxFileSize := limit }

/-- Turn a switch on. -/
def turnOn (given : Given) : Switch → Except Refusal Given
  | .help => .error .help
  | .version => .error .version
  | .verbose =>
    .ok { given with verbosity := if given.verbosity = 255 then 255 else given.verbosity + 1 }
  | .detectionRule =>
    if given.detectionRule then .error .argumentConflict else .ok { given with detectionRule := true }
  | .followLinks =>
    if given.followLinks then .error .argumentConflict else .ok { given with followLinks := true }

/-- The formats that have been given. -/
def formats (given : Given) : List Format :=
  given.json.toList.map .json ++ given.toml.toList.map .toml
    ++ if given.detectionRule then [.detectionRule] else []

end Given

/-! ## The arguments one by one -/

/-- The state between two arguments. -/
structure Reading where
  given : Given := {}
  /-- An option whose value has not been examined or, if there is none, has not been met. -/
  pending : Option (Valued × Option String) := none
  /-- Two dashes have been met. -/
  literalsOnly : Bool := false
deriving DecidableEq, Repr

namespace Reading

/-- Examine the value of the pending option. -/
def settle (reading : Reading) : Except Refusal Reading :=
  match reading.pending with
  | none => .ok reading
  | some (_, none) => .error .invalidValue
  | some (option, some value) => do
    return { reading with given := ← reading.given.assign option value, pending := none }

/-- Turn a switch on. -/
def turnOn (reading : Reading) (switch : Switch) : Except Refusal Reading := do
  let reading ← reading.settle
  return { reading with given := ← reading.given.turnOn switch }

/-- An option by its long name. -/
def long (reading : Reading) (name : String) (value : Option String) : Except Refusal Reading :=
  match longNames.lookup name, value with
  | none, _ => .error .unknownArgument
  | some (.switch _), some _ => .error .tooManyValues
  | some (.switch switch), none => reading.turnOn switch
  | some (.valued option), some value => do
    let reading ← reading.settle
    return { reading with given := ← reading.given.assign option value }
  | some (.valued option), none => do
    let reading ← reading.settle
    return { reading with pending := some (option, none) }

/-- A switch by its letter. -/
def letter (reading : Reading) (c : Char) : Except Refusal Reading :=
  match letters.lookup c with
  | none => .error .unknownArgument
  | some switch => reading.turnOn switch

/-- A literal. -/
def literal (reading : Reading) (text : String) : Except Refusal Reading :=
  if reading.given.literal.isSome then .error .unknownArgument
  else do
    let reading ← reading.settle
    return { reading with given := { reading.given with literal := some text } }

/-- An argument that is no option. -/
def plain (reading : Reading) (argument : String) : Except Refusal Reading :=
  match reading.pending with
  | some (option, none) => .ok { reading with pending := some (option, some argument) }
  | _ => reading.literal argument

/-- The text behind the first equals sign of an option. -/
def attached (name : List Char) : Option String :=
  match name.dropWhile (· ≠ '=') with
  | [] => none
  | _ :: value => some (String.ofList value)

/-- Read one more argument. -/
def step (reading : Reading) (argument : String) : Except Refusal Reading :=
  if reading.literalsOnly then reading.literal argument
  else
    match argument.toList with
    | ['-', '-'] => .ok { reading with literalsOnly := true }
    | '-' :: '-' :: name =>
      reading.long (String.ofList (name.takeWhile (· ≠ '='))) (attached name)
    | '-' :: c :: cs => (c :: cs).foldlM letter reading
    | _ => reading.plain argument

end Reading

/-! ## The command -/

/-- What the arguments ask for. -/
structure Command where
  config : Config
  verbosity : UInt8
deriving DecidableEq, Repr

/-- The limit on the size of inputs: from the arguments, or else from the environment, or else the default. -/
def Given.limit (given : Given) (environment : Option String) : Except Refusal UInt64 :=
  match given.maxFileSize, environment with
  | some limit, _ => .ok limit
  | none, none => .ok ({} : Files.Limits).maxFileSize
  | none, some value =>
    match bytes? value with
    | none => .error .valueValidation
    | some limit => .ok limit

/-- The command that has been given. -/
def Given.command (given : Given) (environment : Option String) : Except Refusal Command := do
  let limit ← given.limit environment
  let format ← match given.formats with
    | [] => .ok .raw
    | [format] => .ok format
    | _ => .error .argumentConflict
  return {
    config := {
      literal := given.literal
      patterns := given.patterns
      format := format
      style := given.style.getD .text
      limits := { maxFileSize := limit, followLinks := given.followLinks } }
    verbosity := given.verbosity }

/-- The command that arguments and the limit in the environment ask for. -/
def decode (environment : Option String) (arguments : List String) : Except Refusal Command := do
  let reading ← arguments.foldlM Reading.step {}
  let reading ← reading.settle
  reading.given.command environment

end Esql.CommandLine
