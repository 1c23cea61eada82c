import ClosureLang.Command.Conform
import ClosureLang.Command.Dispatch
import ClosureLang.Command.Doc
import ClosureLang.Command.Flag
import ClosureLang.Command.Format
import ClosureLang.Command.Interact
import ClosureLang.Command.Lint
import ClosureLang.Command.Run
import ClosureLang.Command.Settings
import ClosureLang.Command.ShowTree
import ClosureLang.Command.Source
import ClosureLang.Conformance.Case
import ClosureLang.Conformance.Lines
import ClosureLang.Data.Dotenv
import ClosureLang.Data.Double
import ClosureLang.Data.Format
import ClosureLang.Data.Hcl.Document
import ClosureLang.Data.Hcl.Token
import ClosureLang.Data.Ini
import ClosureLang.Data.Json
import ClosureLang.Data.Properties
import ClosureLang.Data.Toml.Document
import ClosureLang.Data.Toml.Scalar
import ClosureLang.Data.Value
import ClosureLang.Data.Yaml.Cursor
import ClosureLang.Data.Yaml.Meaning
import ClosureLang.Data.Yaml.Node
import ClosureLang.Data.Yaml.Scalar
import ClosureLang.Data.Yaml.Tag
import ClosureLang.Data.Yaml.Token
import ClosureLang.Diff
import ClosureLang.Docs
import ClosureLang.Editor.Document
import ClosureLang.Editor.Index
import ClosureLang.Editor.Position
import ClosureLang.Editor.Server
import ClosureLang.Files.FileTree
import ClosureLang.Files.Glob
import ClosureLang.Fold
import ClosureLang.Grammar.Lexis
import ClosureLang.Grammar.Memo
import ClosureLang.Grammar.Parser
import ClosureLang.Grammar.Rules
import ClosureLang.Guide
import ClosureLang.Host
import ClosureLang.Layout
import ClosureLang.Lint.Checks
import ClosureLang.Lint.Finding
import ClosureLang.Lint.Linter
import ClosureLang.Location
import ClosureLang.Main
import ClosureLang.Profile.Annotator
import ClosureLang.Profile.Callgrind
import ClosureLang.Profile.Labels
import ClosureLang.Profile.Spans
import ClosureLang.Profile.View
import ClosureLang.Proofs.Conformance.Lines
import ClosureLang.Proofs.Diff.Minimality
import ClosureLang.Proofs.Editor.Accounting
import ClosureLang.Proofs.Editor.Behaviour
import ClosureLang.Proofs.Editor.Blocks
import ClosureLang.Proofs.Editor.Completion
import ClosureLang.Proofs.Editor.Edits
import ClosureLang.Proofs.Editor.Extents
import ClosureLang.Proofs.Editor.Indexing
import ClosureLang.Proofs.Editor.Inventory
import ClosureLang.Proofs.Editor.Nesting
import ClosureLang.Proofs.Editor.Offsets
import ClosureLang.Proofs.Editor.Positions
import ClosureLang.Proofs.Editor.Regions
import ClosureLang.Proofs.Editor.Renaming
import ClosureLang.Proofs.Editor.Resolution
import ClosureLang.Proofs.Editor.Scopes
import ClosureLang.Proofs.Editor.Totality
import ClosureLang.Proofs.Fold.Constants
import ClosureLang.Proofs.Fold.Equations
import ClosureLang.Proofs.Fold.Errors
import ClosureLang.Proofs.Fold.Hazards
import ClosureLang.Proofs.Fold.Normal
import ClosureLang.Proofs.Fold.Operands
import ClosureLang.Proofs.Fold.Preservation
import ClosureLang.Proofs.Fold.Scopes
import ClosureLang.Proofs.Fold.Shapes
import ClosureLang.Proofs.Fold.Sorts
import ClosureLang.Proofs.Fold.Sums
import ClosureLang.Proofs.Fold.Terms
import ClosureLang.Proofs.Fold.Timing
import ClosureLang.Proofs.Grammar.Agreement
import ClosureLang.Proofs.Grammar.Ahead
import ClosureLang.Proofs.Grammar.Anchors
import ClosureLang.Proofs.Grammar.Bodies
import ClosureLang.Proofs.Grammar.Brackets
import ClosureLang.Proofs.Grammar.Continuation
import ClosureLang.Proofs.Grammar.Derivations
import ClosureLang.Proofs.Grammar.Following
import ClosureLang.Proofs.Grammar.Fronts
import ClosureLang.Proofs.Grammar.Inorder
import ClosureLang.Proofs.Grammar.Lexemes
import ClosureLang.Proofs.Grammar.Locality
import ClosureLang.Proofs.Grammar.Memoization
import ClosureLang.Proofs.Grammar.Names
import ClosureLang.Proofs.Grammar.Orderly
import ClosureLang.Proofs.Grammar.Parallel
import ClosureLang.Proofs.Grammar.Passage
import ClosureLang.Proofs.Grammar.Peg
import ClosureLang.Proofs.Grammar.Readings
import ClosureLang.Proofs.Grammar.Respelling
import ClosureLang.Proofs.Grammar.Sorts
import ClosureLang.Proofs.Grammar.Syntax
import ClosureLang.Proofs.Grammar.Words
import ClosureLang.Proofs.Layout.Alternatives
import ClosureLang.Proofs.Layout.Dues
import ClosureLang.Proofs.Layout.Expressions
import ClosureLang.Proofs.Layout.Faults
import ClosureLang.Proofs.Layout.Functions
import ClosureLang.Proofs.Layout.Groups
import ClosureLang.Proofs.Layout.Leftmost
import ClosureLang.Proofs.Layout.Levels
import ClosureLang.Proofs.Layout.Necessity
import ClosureLang.Proofs.Layout.Outline
import ClosureLang.Proofs.Layout.Printing
import ClosureLang.Proofs.Layout.Respacing
import ClosureLang.Proofs.Layout.Roundtrip
import ClosureLang.Proofs.Layout.Settling
import ClosureLang.Proofs.Layout.Statements
import ClosureLang.Proofs.Lint.Checks
import ClosureLang.Proofs.Lint.Divisions
import ClosureLang.Proofs.Lint.Scopes
import ClosureLang.Proofs.Profile.Annotators
import ClosureLang.Proofs.Profile.Capacity
import ClosureLang.Proofs.Profile.Hooks
import ClosureLang.Proofs.Profile.Records
import ClosureLang.Proofs.Profile.Settling
import ClosureLang.Proofs.Run.BigStep
import ClosureLang.Proofs.Run.Chains
import ClosureLang.Proofs.Run.Comparison
import ClosureLang.Proofs.Run.Contexts
import ClosureLang.Proofs.Run.Depth
import ClosureLang.Proofs.Run.Effects
import ClosureLang.Proofs.Run.Failures
import ClosureLang.Proofs.Run.Forest
import ClosureLang.Proofs.Run.Growth
import ClosureLang.Proofs.Run.Hygiene
import ClosureLang.Proofs.Run.Integrity
import ClosureLang.Proofs.Run.Lineage
import ClosureLang.Proofs.Run.Observation
import ClosureLang.Proofs.Run.Origins
import ClosureLang.Proofs.Run.Outcomes
import ClosureLang.Proofs.Run.Placement
import ClosureLang.Proofs.Run.Presence
import ClosureLang.Proofs.Run.Progress
import ClosureLang.Proofs.Run.Reports
import ClosureLang.Proofs.Run.Requests
import ClosureLang.Proofs.Run.Respelled
import ClosureLang.Proofs.Run.Safety
import ClosureLang.Proofs.Run.Scoping
import ClosureLang.Proofs.Run.Simulation
import ClosureLang.Proofs.Run.Steps
import ClosureLang.Proofs.Run.StructuredReturn
import ClosureLang.Proofs.Run.Tasks
import ClosureLang.Proofs.Run.Unison
import ClosureLang.Proofs.Session.Failures
import ClosureLang.Proofs.Session.Pending
import ClosureLang.Proofs.Text.Encoding
import ClosureLang.Proofs.Tree.Everywhere
import ClosureLang.Proofs.Tree.Lexing
import ClosureLang.Proofs.Tree.Names
import ClosureLang.Proofs.Tree.Normalization
import ClosureLang.Proofs.Tree.Rereading
import ClosureLang.Proofs.Tree.Shapes
import ClosureLang.Proofs.Tree.Similar
import ClosureLang.Proofs.Tree.Sufficiency
import ClosureLang.Proofs.Tree.Uses
import ClosureLang.Proofs.Tree.Validity
import ClosureLang.Proofs.Tree.WellSorted
import ClosureLang.Report.Color
import ClosureLang.Report.Render
import ClosureLang.Run.Eval
import ClosureLang.Run.Machine
import ClosureLang.Run.Program
import ClosureLang.Run.Store
import ClosureLang.Session
import ClosureLang.Text.Blank
import ClosureLang.Text.Decimal
import ClosureLang.Text.Indent
import ClosureLang.Text.Json
import ClosureLang.Text.Lower
import ClosureLang.Text.Numeral
import ClosureLang.Text.Printable
import ClosureLang.Text.Utf8
import ClosureLang.Text.Width
import ClosureLang.Text.Wrap
import ClosureLang.Tree.Basic
import ClosureLang.Tree.Canonical
import ClosureLang.Tree.Equality
import ClosureLang.Tree.Kind
import ClosureLang.Tree.Reader
import ClosureLang.Tree.Validate
import ClosureLang.Tree.Walk
