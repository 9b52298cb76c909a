import DocQuery.Text.Position
import DocQuery.Text.CharClass
import DocQuery.Text.Casing
import DocQuery.Number.Reading
import DocQuery.Json.Text
import DocQuery.Json.Numeral
import DocQuery.Json.Shape
import DocQuery.Time.Pattern
import DocQuery.Path
import DocQuery.Fault
import DocQuery.Number.Leading
import DocQuery.Text.Cursor
import DocQuery.Expr.Language
import DocQuery.Expr.Lexer
import DocQuery.Expr.Parser
import DocQuery.Document
import DocQuery.Source.Reader
import DocQuery.Draft.Cells
import DocQuery.Draft.Freeze
import DocQuery.Options
import DocQuery.Value.Basic
import DocQuery.Value.Compare
import DocQuery.Formula.Aggregate
import DocQuery.Formula.Evaluate
import DocQuery.Dialect.Extended
import DocQuery.Formula.Compile
import DocQuery.Directive.Apply
import DocQuery.Compilation
import DocQuery.CommandLine
import DocQuery.Main
import DocQuery.Proofs.Expr.Grouping
import DocQuery.Proofs.Expr.Associativity
import DocQuery.Proofs.Directive.Circle
import DocQuery.Proofs.Directive.Solution
import DocQuery.Proofs.Formula.Kinds
import DocQuery.Proofs.Source.Outline
import DocQuery.Proofs.Source.Grammar
import DocQuery.Proofs.Source.Recognition
import DocQuery.Proofs.Source.RoundTrip
import DocQuery.Proofs.Formula.Interpretation
import DocQuery.Proofs.Formula.Scoping
import DocQuery.Proofs.Formula.Soundness
import DocQuery.Proofs.Formula.Renaming
import DocQuery.Proofs.Formula.Flattening
import DocQuery.Proofs.Formula.Indexing
import DocQuery.Proofs.Formula.Prefixes
import DocQuery.Proofs.Directive.Embedding
import DocQuery.Proofs.Directive.Addresses
import DocQuery.Proofs.Directive.Identifiers
import DocQuery.Proofs.Directive.Provenance
import DocQuery.Proofs.Chain.Nearest
import DocQuery.Proofs.Chain.Stack
import DocQuery.Proofs.Chain.Lineage
import DocQuery.Proofs.Source.Soundness
import DocQuery.Proofs.Expr.Soundness
import DocQuery.Proofs.Chain.Soundness
import DocQuery.Proofs.Directive.Locality
import DocQuery.Proofs.Directive.Snapshot
import DocQuery.Proofs.Directive.Projection
import DocQuery.Proofs.Directive.Absence
import DocQuery.Proofs.Directive.Splitting
import DocQuery.Proofs.Directive.Members
import DocQuery.Proofs.Directive.Malformation
import DocQuery.Proofs.Directive.Reporting
import DocQuery.Proofs.Expr.Extension
import DocQuery.Proofs.Text.Surrogates
import DocQuery.Proofs.Draft.Columns
import DocQuery.Proofs.Value.Comparing
import DocQuery.Proofs.Value.Storing
import DocQuery.Proofs.Value.Sorting
import DocQuery.Proofs.Value.Distinguishing
import DocQuery.Proofs.Value.Copies
import DocQuery.Proofs.Value.Reordering
import DocQuery.Proofs.Path.Segments
import DocQuery.Proofs.Formula.Parity
import DocQuery.Proofs.Formula.Aggregating
import DocQuery.Proofs.Formula.Origins
import DocQuery.Proofs.Formula.Rearranging
import DocQuery.Proofs.Formula.Confinement
import DocQuery.Proofs.Formula.Unordered
import DocQuery.Proofs.Draft.Attachment
import DocQuery.Proofs.Text.Scanning
import DocQuery.Proofs.Number.Longest
