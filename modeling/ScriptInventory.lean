import ScriptInventory.CommandLine.Arguments
import ScriptInventory.CommandLine.Run
import ScriptInventory.Config
import ScriptInventory.Corpus
import ScriptInventory.Declaration.Binding
import ScriptInventory.Declaration.NumberKey
import ScriptInventory.Declaration.Shape
import ScriptInventory.Declaration.StringKey
import ScriptInventory.Declaration.Structural
import ScriptInventory.Dictionary
import ScriptInventory.Files.Tree
import ScriptInventory.Glob.Parse
import ScriptInventory.Glob.Piece
import ScriptInventory.GlobalScope
import ScriptInventory.Ignore.Level
import ScriptInventory.Ignore.Rule
import ScriptInventory.Inventory
import ScriptInventory.Json.Fault
import ScriptInventory.Json.Parse
import ScriptInventory.Json.Pretty
import ScriptInventory.Json.Read
import ScriptInventory.Json.Token
import ScriptInventory.Json.Value
import ScriptInventory.Main
import ScriptInventory.Names
import ScriptInventory.Number.Binary
import ScriptInventory.Number.Decimal
import ScriptInventory.Number.Shortest
import ScriptInventory.Page.Manifest
import ScriptInventory.Page.Record
import ScriptInventory.Page.Scan
import ScriptInventory.Pattern.Inventory
import ScriptInventory.Pattern.Scan
import ScriptInventory.Proofs.Names
import ScriptInventory.Proofs.Collections
import ScriptInventory.Proofs.Text.Runs
import ScriptInventory.Report.Format
import ScriptInventory.Report.Json
import ScriptInventory.Report.Render
import ScriptInventory.Report.Text
import ScriptInventory.Report.Xml
import ScriptInventory.Scan.Directory
import ScriptInventory.Scan.Sources
import ScriptInventory.Script.Cursor
import ScriptInventory.Script.Damage
import ScriptInventory.Script.Grammar.Automaton
import ScriptInventory.Script.Grammar.Production
import ScriptInventory.Script.Grammar.Rule
import ScriptInventory.Script.Grammar.Rules
import ScriptInventory.Script.Kind
import ScriptInventory.Script.Letter
import ScriptInventory.Script.Lexeme
import ScriptInventory.Script.LineEnd
import ScriptInventory.Script.Node
import ScriptInventory.Script.Parse
import ScriptInventory.Script.Place
import ScriptInventory.Script.Plain.Read
import ScriptInventory.Script.Plain.Token
import ScriptInventory.Script.Tolerant.Lexer
import ScriptInventory.Script.Tolerant.Machine
import ScriptInventory.Script.Tolerant.Recovery
import ScriptInventory.Script.Tolerant.Reduce
import ScriptInventory.Script.Tolerant.Tree
import ScriptInventory.SourceUnit
import ScriptInventory.Symbol
import ScriptInventory.Text.Cased
import ScriptInventory.Text.Lowercase
import ScriptInventory.Text.WhiteSpace
import ScriptInventory.Proofs.Walk
import ScriptInventory.Proofs.Pattern.Matches
import ScriptInventory.Proofs.Pattern.Outline
import ScriptInventory.Proofs.Files.Differ
import ScriptInventory.Proofs.Scan.Isolation
import ScriptInventory.Proofs.Canonical.Program
import ScriptInventory.Proofs.Canonical.Tokens
import ScriptInventory.Proofs.Canonical.Patterns
import ScriptInventory.Proofs.Canonical.Declarations
import ScriptInventory.Proofs.Corpus
import ScriptInventory.Proofs.Page.Records
import ScriptInventory.Proofs.Glob.Components
import ScriptInventory.Proofs.Files.Reordered
import ScriptInventory.Proofs.Scan.Exclusion
import ScriptInventory.Proofs.Scan.Listing
import ScriptInventory.Proofs.Scan.Reading
import ScriptInventory.Proofs.Page.Agreement
import ScriptInventory.Proofs.Json.Lexing
import ScriptInventory.Proofs.Json.RoundTrip
import ScriptInventory.Proofs.Report.Json
import ScriptInventory.Proofs.Report.Xml
import ScriptInventory.Proofs.Grammar.Automaton
import ScriptInventory.Proofs.Text.Lexemes
import ScriptInventory.Proofs.Tolerant.Accept
import ScriptInventory.Proofs.Tolerant.Drive
import ScriptInventory.Proofs.Binding.Target
import ScriptInventory.Proofs.Key.Spelling
import ScriptInventory.Proofs.Key.CodeUnits
import ScriptInventory.Proofs.Key.Unresolved
import ScriptInventory.Proofs.Number.Decimal
import ScriptInventory.Proofs.Number.Nearest
import ScriptInventory.Proofs.Number.Shortest
import ScriptInventory.Proofs.Key.Numeral
import ScriptInventory.Proofs.Key.DecimalKey
import ScriptInventory.Proofs.Key.SameValue
import ScriptInventory.Proofs.Binding.Comments
import ScriptInventory.Proofs.CommandLine.ExitStatus
import ScriptInventory.Proofs.Grammar.Script
import ScriptInventory.Proofs.Tolerant.Visit
import ScriptInventory.Proofs.Tolerant.Named
import ScriptInventory.Proofs.Pattern.Keyword
import ScriptInventory.Proofs.Tolerant.Keyword
import ScriptInventory.Proofs.Plain.Tokens
import ScriptInventory.Proofs.Plain.Nodes
import ScriptInventory.Proofs.Plain.Keyword
import ScriptInventory.Proofs.Pattern.Structural
import ScriptInventory.Proofs.Pattern.Separator
import ScriptInventory.Proofs.GlobalScope
import ScriptInventory.Proofs.Scan.Filters
import ScriptInventory.Proofs.Fault.Search
import ScriptInventory.Proofs.Fault.Whole
import ScriptInventory.Proofs.Text.Places
import ScriptInventory.Proofs.Plain.Sound
import ScriptInventory.Proofs.Fault.Report
import ScriptInventory.Proofs.Report.Text
import ScriptInventory.Proofs.Json.Grammar
import ScriptInventory.Proofs.Json.Scalars
import ScriptInventory.Proofs.Json.Signs
import ScriptInventory.Proofs.Json.Expected
import ScriptInventory.Proofs.Json.Structure
import ScriptInventory.Proofs.Dictionary
import ScriptInventory.Proofs.Page.Manifest
import ScriptInventory.Proofs.Config
import ScriptInventory.Proofs.Characters
import ScriptInventory.Proofs.Report.Legal
