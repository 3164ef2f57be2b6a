import MojoLint.Command.Run
import MojoLint.Exclusion.Lookup
import MojoLint.Main
import MojoLint.Proofs.Balance.Scan
import MojoLint.Proofs.Repair.Safety
import MojoLint.Proofs.Exclusion.Pass
import MojoLint.Proofs.Exclusion.Documentation
import MojoLint.Proofs.Source.Rows
import MojoLint.Proofs.Rule.Lines
import MojoLint.Proofs.Traits.Reports
import MojoLint.Proofs.Block.Header
import MojoLint.Proofs.Traits.Removal
import MojoLint.Proofs.Exclusion.Lookup
import MojoLint.Proofs.Edit.Selection
import MojoLint.Proofs.Edit.Splice
import MojoLint.Proofs.Text.Basic
import MojoLint.Proofs.Token.Slices
import MojoLint.Proofs.Docstring.Stub
import MojoLint.Proofs.Traits.Edits
import MojoLint.Proofs.Rule.Edits
import MojoLint.Proofs.Checker.Rounds
import MojoLint.Proofs.Balance.Outline
import MojoLint.Proofs.Balance.Neutral
import MojoLint.Proofs.Balance.Preservation
import MojoLint.Proofs.Checker.Order
import MojoLint.Proofs.Backup.Cleanup
import MojoLint.Proofs.Backup.RoundTrip
import MojoLint.Proofs.Command.Lines
import MojoLint.Proofs.Command.Effects
import MojoLint.Proofs.Rule.Placement
import MojoLint.Proofs.Checker.LineEndings
import MojoLint.Proofs.Token.Seams
import MojoLint.Proofs.Block.Reading
import MojoLint.Proofs.Text.Replace
import MojoLint.Proofs.Traits.Grammar
import MojoLint.Proofs.Traits.Walk
import MojoLint.Proofs.Traits.Extension
import MojoLint.Proofs.Traits.ReadBack
import MojoLint.Proofs.Token.Tails
import MojoLint.Proofs.Edit.Lines
import MojoLint.Proofs.Rule.RelativeImports
import MojoLint.Proofs.Balance.Lexed
import MojoLint.Proofs.Text.Delimiter
import MojoLint.Proofs.Rule.Bindings
import MojoLint.Proofs.Rule.BindingPass
import MojoLint.Proofs.Edit.Insertion
import MojoLint.Proofs.Docstring.Size
import MojoLint.Proofs.Rule.Documentation
import MojoLint.Proofs.Traits.Place
import MojoLint.Proofs.Traits.Form
import MojoLint.Proofs.Traits.WellFormed
import MojoLint.Proofs.Block.Extent
import MojoLint.Proofs.Token.Lossless
import MojoLint.Proofs.Balance.Dyck
import MojoLint.Proofs.Traits.Nesting
import MojoLint.Proofs.Rule.Leaks
import MojoLint.Proofs.Docstring.Arguments
import MojoLint.Proofs.Rule.Gpu
import MojoLint.Proofs.Store.Tree
import MojoLint.Proofs.Backup.Retention
import MojoLint.Proofs.Block.Replacement
import MojoLint.Proofs.Lifecycle.SourceArgument
import MojoLint.Proofs.Lifecycle.Trivial
import MojoLint.Proofs.Report.Score
import MojoLint.Proofs.Store.Discovery
import MojoLint.Proofs.Source.Layout
import MojoLint.Proofs.Exclusion.Tail
import MojoLint.Proofs.Lifecycle.Initialiser
import MojoLint.Proofs.Token.Lexemes
import MojoLint.Proofs.Token.Bare
import MojoLint.Proofs.Token.Relexing
