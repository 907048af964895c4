import Workflow.Check.Arguments
import Workflow.Check.Basic
import Workflow.Check.Issue
import Workflow.Check.Names
import Workflow.Check.Targets
import Workflow.CommandLine.Arguments
import Workflow.CommandLine.Directory
import Workflow.CommandLine.Run
import Workflow.Compile
import Workflow.Document.Basic
import Workflow.Document.Fields
import Workflow.Document.Json
import Workflow.Document.Scalar
import Workflow.Document.Yaml
import Workflow.Expr.Basic
import Workflow.Expr.Lowering
import Workflow.Expr.OfTree
import Workflow.Expr.Operator
import Workflow.Expr.Text
import Workflow.Grammar.Expression
import Workflow.Grammar.Program
import Workflow.Grammar.Reading
import Workflow.Grammar.Statement
import Workflow.Main
import Workflow.Number.Basic
import Workflow.Number.Binary64
import Workflow.Number.Decimal
import Workflow.Number.Layout
import Workflow.Number.Shortest
import Workflow.Program.Basic
import Workflow.Program.Defect
import Workflow.Program.Naming
import Workflow.Program.OfTree
import Workflow.Program.Rendering
import Workflow.Report
import Workflow.Step.Basic
import Workflow.Step.Merge
import Workflow.Step.Options
import Workflow.Step.Walk
import Workflow.Text.Blank
import Workflow.Text.Hex
import Workflow.Text.Position
import Workflow.Text.Quoted
import Workflow.Text.Word
import Workflow.Token.Basic
import Workflow.Token.Numeral
import Workflow.Token.Scan
import Workflow.Trace
import Workflow.Tree.Basic
import Workflow.Tree.Malformation
import Workflow.Tree.Rule
import Workflow.Proofs.Token.Image
import Workflow.Proofs.Token.Gap
import Workflow.Proofs.Token.Tiling
import Workflow.Proofs.Grammar.Phrase
import Workflow.Proofs.Grammar.Reading
import Workflow.Proofs.Grammar.Opening
import Workflow.Proofs.Grammar.Soundness
import Workflow.Proofs.Grammar.Completeness
import Workflow.Proofs.Grammar.Language
import Workflow.Proofs.Layout.Alike
import Workflow.Proofs.Layout.Parsing
import Workflow.Proofs.Layout.Expressions
import Workflow.Proofs.Layout.Programs
import Workflow.Proofs.Layout.Invariance
import Workflow.Proofs.Build.Expression
import Workflow.Proofs.Build.Statement
import Workflow.Proofs.Token.Written
import Workflow.Proofs.Token.Spelling
import Workflow.Proofs.Expr.Folding
import Workflow.Proofs.Expr.Occurrence
import Workflow.Proofs.Fields
import Workflow.Proofs.Expr.Reading
import Workflow.Proofs.Expr.Reference
import Workflow.Proofs.Expr.Origin
import Workflow.Proofs.Program.Origin
import Workflow.Proofs.Program.RoundTrip
import Workflow.Proofs.Program.Numbering
import Workflow.Proofs.Build.Checks
import Workflow.Proofs.Build.Acceptance
import Workflow.Proofs.Program.Formed
import Workflow.Proofs.Program.Built
import Workflow.Proofs.Document.Schema
import Workflow.Proofs.Document.Shape
import Workflow.Proofs.Document.Conformance
import Workflow.Proofs.Check.Acceptance
import Workflow.Proofs.Document.Entries
import Workflow.Proofs.Document.References
import Workflow.Proofs.Step.Path
import Workflow.Proofs.Check.Conditions
import Workflow.Proofs.Check.Repetition
import Workflow.Proofs.Check.Independence
import Workflow.Proofs.Document.Signatures
import Workflow.Proofs.Document.Traversal
import Workflow.Proofs.Token.Continuation
import Workflow.Proofs.Program.Extension
import Workflow.Proofs.Grammar.Prompt
import Workflow.Proofs.Grammar.Prompt.Expression
import Workflow.Proofs.Grammar.Prompt.Call
import Workflow.Proofs.Grammar.Prompt.Statement
import Workflow.Proofs.Grammar.NoEnd
import Workflow.Proofs.Grammar.EarliestFault
import Workflow.Proofs.Step.Every
import Workflow.Proofs.Program.WellFormed
import Workflow.Proofs.Build.StatementFree
import Workflow.Proofs.Step.Loops
import Workflow.Proofs.Program.Jumps
import Workflow.Proofs.Document.Jumps
import Workflow.Proofs.Token.Quotation
import Workflow.Proofs.Number.Value
import Workflow.Proofs.Expr.Lowering
import Workflow.Proofs.Program.Lowering
import Workflow.Proofs.Document.Iterables
import Workflow.Proofs.Token.Bounded
import Workflow.Proofs.Expr.Plain
import Workflow.Proofs.Number.Rounding
import Workflow.Proofs.Number.Shortest
import Workflow.Proofs.Number.Written
import Workflow.Proofs.Expr.Sign
import Workflow.Proofs.Expr.Terms
import Workflow.Proofs.Expr.Parsing
import Workflow.Proofs.Expr.Shapes
import Workflow.Proofs.Expr.Objects
import Workflow.Proofs.Expr.Splicing
import Workflow.Proofs.Program.Splicing
import Workflow.Proofs.Token.CodeUnits
import Workflow.Proofs.Number.Integer
import Workflow.Proofs.Number.Longest
import Workflow.Proofs.Number.Rereading
import Workflow.Proofs.Grammar.Backtracking
import Workflow.Proofs.Step.Merging
import Workflow.Proofs.Build.Blocks
import Workflow.Proofs.Step.Bindings
import Workflow.Proofs.Step.Options
import Workflow.Proofs.Program.Places
import Workflow.Proofs.Program.Calls
import Workflow.Proofs.Program.Temporaries
import Workflow.Proofs.Token.Fault
import Workflow.Proofs.Grammar.Walk.Programs
