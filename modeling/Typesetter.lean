import Typesetter.Analysis.Dependency
import Typesetter.CommandLine.Basic
import Typesetter.CommandLine.Options
import Typesetter.Decimal.Binary
import Typesetter.Decimal.Reading
import Typesetter.Decimal.Shortest
import Typesetter.Derived.Page
import Typesetter.Derived.State
import Typesetter.Derived.Style
import Typesetter.Derived.Variable
import Typesetter.Diagnostic
import Typesetter.Document.Listing
import Typesetter.Document.References
import Typesetter.Document.Registry
import Typesetter.Document.Scope
import Typesetter.Document.Store
import Typesetter.Document.Phrasebook
import Typesetter.Evaluation.Application
import Typesetter.Evaluation.Argument
import Typesetter.Evaluation.Effect
import Typesetter.Evaluation.Form
import Typesetter.Evaluation.Operand
import Typesetter.Evaluation.Position
import Typesetter.Evaluation.Rule
import Typesetter.Evaluation.Run
import Typesetter.Evaluation.State
import Typesetter.Fault
import Typesetter.Files.Disk
import Typesetter.Files.Path
import Typesetter.Files.System
import Typesetter.Limits
import Typesetter.Macro.Expansion
import Typesetter.Macro.SourceView
import Typesetter.Main
import Typesetter.Measure.Color
import Typesetter.Measure.Units
import Typesetter.Operation.Arithmetic
import Typesetter.Operation.Calendar
import Typesetter.Operation.Comparison
import Typesetter.Operation.Date
import Typesetter.Operation.Numbering
import Typesetter.Operation.Quantity
import Typesetter.Operation.Sequence
import Typesetter.Session.Basic
import Typesetter.Session.Defaults
import Typesetter.Session.Environment
import Typesetter.Settings.Basic
import Typesetter.Settings.InactiveMode
import Typesetter.Settings.Json
import Typesetter.Text.Blank
import Typesetter.Text.Numeral
import Typesetter.Text.Unprintable
import Typesetter.Tree.Basic
import Typesetter.Tree.Json
import Typesetter.Tree.Printer
import Typesetter.Tree.Reader
import Typesetter.Tree.Tag
import Typesetter.Proofs.Evaluation.Routine
import Typesetter.Proofs.Evaluation.Operands
import Typesetter.Proofs.SourceView.Tags
import Typesetter.Proofs.Evaluation.Forms
import Typesetter.Proofs.Evaluation.Preservation
import Typesetter.Proofs.Evaluation.Balance
import Typesetter.Proofs.Evaluation.Position
import Typesetter.Proofs.Evaluation.Refreshing
import Typesetter.Proofs.Evaluation.Termination
import Typesetter.Proofs.Evaluation.Nesting
import Typesetter.Proofs.Session.Scopes
import Typesetter.Proofs.Derived.Field
import Typesetter.Proofs.Derived.Settled
import Typesetter.Proofs.Evaluation.Tracking
import Typesetter.Proofs.Session.History
import Typesetter.Proofs.Evaluation.Fuel
import Typesetter.Proofs.Evaluation.Partial
import Typesetter.Proofs.Tree.Every
import Typesetter.Proofs.Tree.Steps
import Typesetter.Proofs.Operation.Fresh
import Typesetter.Proofs.Derived.Alike
import Typesetter.Proofs.Macro.Expansion
import Typesetter.Proofs.SourceView.Alike
import Typesetter.Proofs.Operation.Sequence
import Typesetter.Proofs.Logic.Basic
import Typesetter.Proofs.Logic.Operands
import Typesetter.Proofs.Logic.Rules
import Typesetter.Proofs.Evaluation.Contents
import Typesetter.Proofs.Vocabulary.Basic
import Typesetter.Proofs.Vocabulary.Errors
import Typesetter.Proofs.Vocabulary.Unassigned
import Typesetter.Proofs.Vocabulary.Printing
import Typesetter.Proofs.Analysis.Comparison
import Typesetter.Proofs.Analysis.View
import Typesetter.Proofs.Analysis.Coverage
import Typesetter.Proofs.Analysis.Soundness
import Typesetter.Proofs.Analysis.Unread
import Typesetter.Proofs.Analysis.Position
import Typesetter.Proofs.Analysis.Compound
import Typesetter.Proofs.Session.Restoration
import Typesetter.Proofs.Session.Consumers
import Typesetter.Proofs.Tree.Readable
import Typesetter.Proofs.Tree.Grammar
import Typesetter.Proofs.Tree.Reading
import Typesetter.Proofs.Tree.Recognition
import Typesetter.Proofs.Tree.Continuation
import Typesetter.Proofs.SourceView.Erasure
import Typesetter.Proofs.SourceView.Nesting
import Typesetter.Proofs.SourceView.Inert
import Typesetter.Proofs.SourceView.Depth
import Typesetter.Proofs.Evaluation.Relaxation
import Typesetter.Proofs.Indexing.Run
import Typesetter.Proofs.Document.Layers
import Typesetter.Proofs.Session.Edits
import Typesetter.Proofs.Session.BulkWriting
import Typesetter.Proofs.Evaluation.Bindings
import Typesetter.Proofs.Analysis.Rerun
import Typesetter.Proofs.Evaluation.Capture
import Typesetter.Proofs.Evaluation.EarlierBindings
import Typesetter.Proofs.Text.Numeral
import Typesetter.Proofs.Evaluation.Arguments
import Typesetter.Proofs.Evaluation.Strict
import Typesetter.Proofs.Evaluation.Propagation
import Typesetter.Proofs.Document.Undoing
import Typesetter.Proofs.Evaluation.Quasiquotation
import Typesetter.Proofs.Operation.Integers
import Typesetter.Proofs.Decimal.Order
import Typesetter.Proofs.Decimal.Rounding
import Typesetter.Proofs.Decimal.Conversion
import Typesetter.Proofs.Operation.Comparison
import Typesetter.Proofs.Analysis.References
import Typesetter.Proofs.Document.Changes
import Typesetter.Proofs.Tree.Location
import Typesetter.Proofs.Operation.Slices
import Typesetter.Proofs.Files.Resolution
import Typesetter.Proofs.Measure.Color
import Typesetter.Proofs.Document.Origins
import Typesetter.Proofs.Operation.Numbering
