import FlatExpr.Evaluator.Arithmetic
import FlatExpr.Evaluator.Condition
import FlatExpr.Evaluator.Polish
import FlatExpr.Evaluator.Trace
import FlatExpr.Expr.Outline
import FlatExpr.Expr.Render
import FlatExpr.Parser
import FlatExpr.Source.Report
import FlatExpr.Storage.Dialect
import FlatExpr.Storage.Expr
import FlatExpr.Storage.Value
import FlatExpr.Proofs.Lexemes
import FlatExpr.Proofs.Symbols
import FlatExpr.Proofs.Words
import FlatExpr.Proofs.Cursor
import FlatExpr.Proofs.Phrases
import FlatExpr.Proofs.Rules
import FlatExpr.Proofs.Terms
import FlatExpr.Proofs.Operations
import FlatExpr.Proofs.Sequences
import FlatExpr.Proofs.Yield
import FlatExpr.Proofs.Spacing
import FlatExpr.Proofs.Rendering
import FlatExpr.Proofs.RoundTrip
import FlatExpr.Proofs.Canonical
import FlatExpr.Proofs.Shapes
import FlatExpr.Proofs.Gating
import FlatExpr.Proofs.Levels
import FlatExpr.Proofs.Limit
import FlatExpr.Proofs.Threshold
import FlatExpr.Proofs.Spans
import FlatExpr.Proofs.EntryPoints
import FlatExpr.Proofs.Agreement
import FlatExpr.Proofs.Failures
import FlatExpr.Proofs.Occurrence
import FlatExpr.Proofs.Diagnosis
import FlatExpr.Proofs.Location
import FlatExpr.Proofs.Apart
import FlatExpr.Proofs.Contracts
import FlatExpr.Proofs.Scanning
import FlatExpr.Proofs.Gaps
import FlatExpr.Proofs.Documents
import FlatExpr.Proofs.Storage
import FlatExpr.Proofs.Postorder
import FlatExpr.Proofs.Verbatim
import FlatExpr.Proofs.Extension
import FlatExpr.Proofs.Blanks
import FlatExpr.Proofs.Separators
import FlatExpr.Proofs.Nesting
import FlatExpr.Proofs.Termination
import FlatExpr.Proofs.Positions
import FlatExpr.Proofs.Snippets
import FlatExpr.Proofs.Gathering
import FlatExpr.Proofs.Indices
import FlatExpr.Proofs.IndexRules
import FlatExpr.Proofs.Bounds
