import Esql.CommandLine.Arguments
import Esql.CommandLine.Program
import Esql.Document.Json
import Esql.Document.Json.Numeral
import Esql.Document.Json.Reader
import Esql.Document.Json.Writer
import Esql.Document.KeyPath
import Esql.Document.Toml
import Esql.Document.Toml.Assembly
import Esql.Document.Toml.DateTime
import Esql.Document.Toml.Reader
import Esql.Document.Toml.Writer
import Esql.Extraction
import Esql.Failure
import Esql.Files.Bounded
import Esql.Files.Disk
import Esql.Files.Glob
import Esql.Files.Path
import Esql.Files.Resolve
import Esql.Files.Tree
import Esql.Main
import Esql.Number.Double
import Esql.Number.Numeral
import Esql.Number.Shortest
import Esql.Proofs.Document.FirstMembers
import Esql.Proofs.Document.JsonNumbers
import Esql.Proofs.Document.JsonText
import Esql.Proofs.Document.KeyPaths
import Esql.Proofs.Document.PathSpellings
import Esql.Proofs.Document.RuleFields
import Esql.Proofs.Document.RuleTable
import Esql.Proofs.Document.TomlAnswers
import Esql.Proofs.Document.TomlDates
import Esql.Proofs.Document.TomlScalars
import Esql.Proofs.Document.TomlSound
import Esql.Proofs.Document.TomlStrings
import Esql.Proofs.Document.TomlTables
import Esql.Proofs.Document.TomlText
import Esql.Proofs.Document.TomlValues
import Esql.Proofs.Files.Links
import Esql.Proofs.Files.Lookup
import Esql.Proofs.Files.Matching
import Esql.Proofs.Files.Narrowing
import Esql.Proofs.Files.Paths
import Esql.Proofs.Files.Resolution
import Esql.Proofs.Files.Walk
import Esql.Proofs.Files.Widening
import Esql.Proofs.Grammar.Ahead
import Esql.Proofs.Grammar.Phrase
import Esql.Proofs.Grammar.Unfolding
import Esql.Proofs.Grammar.Weight
import Esql.Proofs.Number.Digits
import Esql.Proofs.Recognizer.Completion
import Esql.Proofs.Recognizer.Decides
import Esql.Proofs.Recognizer.Effort
import Esql.Proofs.Recognizer.Expected
import Esql.Proofs.Recognizer.Foresight
import Esql.Proofs.Recognizer.Frames
import Esql.Proofs.Recognizer.Fuel
import Esql.Proofs.Recognizer.Gaps
import Esql.Proofs.Recognizer.Leads
import Esql.Proofs.Recognizer.LetterCase
import Esql.Proofs.Recognizer.Located
import Esql.Proofs.Recognizer.Lockstep
import Esql.Proofs.Recognizer.Nesting
import Esql.Proofs.Recognizer.Offending
import Esql.Proofs.Recognizer.Pipes
import Esql.Proofs.Recognizer.Scanned
import Esql.Proofs.Recognizer.Splice
import Esql.Proofs.Recognizer.Steps
import Esql.Proofs.Recognizer.Strategies
import Esql.Proofs.Recognizer.Targets
import Esql.Proofs.Recognizer.Viable
import Esql.Proofs.Report.ObjectLine
import Esql.Proofs.Run.Acts
import Esql.Proofs.Run.Bounds
import Esql.Proofs.Run.Carriers
import Esql.Proofs.Run.Disk
import Esql.Proofs.Run.Files
import Esql.Proofs.Run.Lines
import Esql.Proofs.Run.Sources
import Esql.Proofs.Run.Tally
import Esql.Proofs.Run.Truncation
import Esql.Proofs.Text.ByteOrder
import Esql.Proofs.Tokens.Extent
import Esql.Proofs.Tokens.Letters
import Esql.Proofs.Tokens.Modes
import Esql.Proofs.Tokens.Pairing
import Esql.Proofs.Tokens.Pieces
import Esql.Proofs.Tokens.Quoting
import Esql.Proofs.Tokens.Seam
import Esql.Proofs.Tokens.Signs
import Esql.Proofs.Tokens.Spelling
import Esql.Proofs.Tokens.Trivia
import Esql.Proofs.Tokens.Walks
import Esql.Report.Outcome
import Esql.Report.StatusLine
import Esql.Report.Verdict
import Esql.Run.Config
import Esql.Run.Host
import Esql.Run.Validate
import Esql.Syntax.Error
import Esql.Syntax.Grammar
import Esql.Syntax.Keyword
import Esql.Syntax.Lexeme
import Esql.Syntax.Recognizer
import Esql.Syntax.Token
import Esql.Syntax.Trivia
import Esql.Text.Blank
import Esql.Text.Position
