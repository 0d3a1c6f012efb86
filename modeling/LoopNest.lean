import LoopNest.Compilation
import LoopNest.CompileError
import LoopNest.Diagnostic
import LoopNest.Expr.Basic
import LoopNest.Expr.Form
import LoopNest.Expr.Parser
import LoopNest.Expr.Token
import LoopNest.Kernel.Basic
import LoopNest.Kernel.Draft
import LoopNest.Kernel.Layer
import LoopNest.Kernel.Names
import LoopNest.Kernel.Reach
import LoopNest.Literal
import LoopNest.NameMap
import LoopNest.Number.Binary
import LoopNest.Number.Complex
import LoopNest.Number.Notation
import LoopNest.Number.Places
import LoopNest.Number.Reader
import LoopNest.Number.Shortest
import LoopNest.Passes
import LoopNest.Program.Arithmetic
import LoopNest.Program.Element
import LoopNest.Program.Intrinsic
import LoopNest.Program.Operation
import LoopNest.Program.Reader
import LoopNest.Program.Run
import LoopNest.Program.Scalar
import LoopNest.Program.Template
import LoopNest.Program.Tensor
import LoopNest.Program.Value
import LoopNest.Proofs.Collect
import LoopNest.Proofs.Compilation
import LoopNest.Proofs.Diagnostic
import LoopNest.Proofs.Expr.Accepts
import LoopNest.Proofs.Expr.Derive
import LoopNest.Proofs.Expr.FaultPlaces
import LoopNest.Proofs.Expr.Grammar
import LoopNest.Proofs.Expr.LexemeEnds
import LoopNest.Proofs.Expr.Lexing
import LoopNest.Proofs.Expr.LoadBack
import LoopNest.Proofs.Expr.LongestNumber
import LoopNest.Proofs.Expr.Readable
import LoopNest.Proofs.Expr.ReaderSteps
import LoopNest.Proofs.Expr.Reload
import LoopNest.Proofs.Expr.Scanning
import LoopNest.Proofs.Expr.Unambiguous
import LoopNest.Proofs.Kernel.Alike
import LoopNest.Proofs.Kernel.Analysis
import LoopNest.Proofs.Kernel.ClosedForm
import LoopNest.Proofs.Kernel.Draft
import LoopNest.Proofs.Kernel.Inference
import LoopNest.Proofs.Kernel.Parameters
import LoopNest.Proofs.Kernel.Preorder
import LoopNest.Proofs.Kernel.Reach
import LoopNest.Proofs.Kernel.Unwritten
import LoopNest.Proofs.NameMap
import LoopNest.Proofs.Number.Bits
import LoopNest.Proofs.Number.FloatText
import LoopNest.Proofs.Number.Nearest
import LoopNest.Proofs.Number.Negation
import LoopNest.Proofs.Number.Numeral
import LoopNest.Proofs.Number.Shortest
import LoopNest.Proofs.Outcome
import LoopNest.Proofs.Passes
import LoopNest.Proofs.Program.Execution
import LoopNest.Proofs.Program.Generated
import LoopNest.Proofs.Program.Grid
import LoopNest.Proofs.Program.Lexemes
import LoopNest.Proofs.Program.Meaning
import LoopNest.Proofs.Program.Operands
import LoopNest.Proofs.Program.Parsing
import LoopNest.Proofs.Program.Precedence
import LoopNest.Proofs.Program.Quiet
import LoopNest.Proofs.Program.Reading
import LoopNest.Proofs.Program.Statements
import LoopNest.Proofs.Registry
import LoopNest.Proofs.SExpr.ReadBack
import LoopNest.Proofs.Schedule.Acyclic
import LoopNest.Proofs.Schedule.Arena
import LoopNest.Proofs.Schedule.Attach
import LoopNest.Proofs.Schedule.Conserved
import LoopNest.Proofs.Schedule.Contains
import LoopNest.Proofs.Schedule.Copies
import LoopNest.Proofs.Schedule.Cycles
import LoopNest.Proofs.Schedule.Declared
import LoopNest.Proofs.Schedule.Drain
import LoopNest.Proofs.Schedule.Finished
import LoopNest.Proofs.Schedule.FirstVisit
import LoopNest.Proofs.Schedule.FlatOrder
import LoopNest.Proofs.Schedule.Forward
import LoopNest.Proofs.Schedule.Gathered
import LoopNest.Proofs.Schedule.Grid
import LoopNest.Proofs.Schedule.Hierarchical
import LoopNest.Proofs.Schedule.Hosts
import LoopNest.Proofs.Schedule.InPlace
import LoopNest.Proofs.Schedule.Inline
import LoopNest.Proofs.Schedule.Inside
import LoopNest.Proofs.Schedule.Kept
import LoopNest.Proofs.Schedule.Lasting
import LoopNest.Proofs.Schedule.Lockstep
import LoopNest.Proofs.Schedule.Meeting
import LoopNest.Proofs.Schedule.Nesting
import LoopNest.Proofs.Schedule.Once
import LoopNest.Proofs.Schedule.OneName
import LoopNest.Proofs.Schedule.Placement
import LoopNest.Proofs.Schedule.ReadyTogether
import LoopNest.Proofs.Schedule.Recompile
import LoopNest.Proofs.Schedule.Redundant
import LoopNest.Proofs.Schedule.Scope
import LoopNest.Proofs.Schedule.Search
import LoopNest.Proofs.Schedule.Start
import LoopNest.Proofs.Schedule.Steps
import LoopNest.Proofs.Schedule.TextOrder
import LoopNest.Proofs.Schedule.Turns
import LoopNest.Proofs.Schedule.Visits
import LoopNest.Proofs.Schedule.Vocabulary
import LoopNest.Proofs.Session.Calls
import LoopNest.Proofs.Session.FreshNames
import LoopNest.Proofs.Session.Tables
import LoopNest.Proofs.Source.Acceptance
import LoopNest.Proofs.Source.Constant
import LoopNest.Proofs.Source.Lines
import LoopNest.Proofs.Source.Outline
import LoopNest.Proofs.Source.Productions
import LoopNest.Proofs.Source.Reparse
import LoopNest.Proofs.Source.Spelling
import LoopNest.Proofs.StagePlan
import LoopNest.Registry
import LoopNest.Report
import LoopNest.SExpr.Basic
import LoopNest.SExpr.Reader
import LoopNest.Schedule.Graph
import LoopNest.Schedule.Nest
import LoopNest.Schedule.Nester
import LoopNest.Session
import LoopNest.Settings
import LoopNest.Source
import LoopNest.StagePlan
import LoopNest.Text.Blank
import LoopNest.Text.Combining
import LoopNest.Text.Composite
import LoopNest.Text.Digit
import LoopNest.Text.Identifier
import LoopNest.Text.Normal
import LoopNest.Text.Order
import LoopNest.Text.PointTable
import LoopNest.Text.Printable
import LoopNest.Text.Quoted
import LoopNest.Text.Ranges
import LoopNest.Text.Variant
import LoopNest.Text.Word
