import Esql.Extraction
import Esql.Files.Resolve
import Esql.Report.StatusLine

/-!
# `Run.Config` — what a run is asked to do

A run has a single source of inputs: the files that match some patterns, a literal text, or the standard
input where neither of these is given. Patterns together with a literal are ambiguous.
-/

namespace Esql

open Esql.Files (Limits)
open Esql.Report (Style)

/-- What a run is asked to do. -/
structure Config where
  literal : Option String := none
  patterns : List String := []
  format : Format := .raw
  style : Style := .text
  limits : Limits := {}
deriving DecidableEq, Repr

/-- Where the inputs of a run come from. -/
inductive Source where
  | files (patterns : List String)
  | literal (text : String)
  | stdin
deriving DecidableEq, Repr

/-- The source of a run. -/
def Config.source (config : Config) : Except Failure Source :=
  match config.literal, config.patterns with
  | some literal, _ :: _ => .error (.ambiguous literal)
  | none, pattern :: patterns => .ok (.files (pattern :: patterns))
  | some literal, [] => .ok (.literal literal)
  | none, [] => .ok .stdin

/-- The name of a literal in status lines and failures. -/
def literalLabel : String := "<literal>"

/-- The name of the standard input in status lines and failures. -/
def stdinLabel : String := "<stdin>"

end Esql
