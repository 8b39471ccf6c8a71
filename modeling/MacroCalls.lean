import MacroCalls.Batch.Basic
import MacroCalls.Batch.Logged
import MacroCalls.Batch.Pool
import MacroCalls.Check
import MacroCalls.Diagnostic
import MacroCalls.Failure
import MacroCalls.Fault
import MacroCalls.FormatString
import MacroCalls.Grammar
import MacroCalls.Json.Basic
import MacroCalls.Json.Read
import MacroCalls.Json.Token
import MacroCalls.Outline
import MacroCalls.Outcome
import MacroCalls.Parse
import MacroCalls.Parser
import MacroCalls.Program
import MacroCalls.Program.Decode
import MacroCalls.Program.Encode
import MacroCalls.Report.Diagnosis
import MacroCalls.Report.Excerpt
import MacroCalls.Report.Write
import MacroCalls.SourceFile
import MacroCalls.Span
import MacroCalls.SyntaxError
import MacroCalls.Text.Basic
import MacroCalls.Text.Glyph
import MacroCalls.Text.Painted
import MacroCalls.Text.Printable
import MacroCalls.Text.Quoted
import MacroCalls.Token.Rule
import MacroCalls.Token.Scanner
import MacroCalls.Walk
import MacroCalls.Proofs.Utf8
import MacroCalls.Proofs.Json.Lexemes
import MacroCalls.Proofs.Lexemes
import MacroCalls.Proofs.Tiling
import MacroCalls.Proofs.Reading
import MacroCalls.Proofs.Descent
import MacroCalls.Proofs.Derivation
import MacroCalls.Proofs.Layout
import MacroCalls.Proofs.Expectation
import MacroCalls.Proofs.Spans
import MacroCalls.Proofs.Guarded.Access
import MacroCalls.Proofs.Guarded.Parse
import MacroCalls.Proofs.Guarded.Check
import MacroCalls.Proofs.Grouping
import MacroCalls.Proofs.Guarded.Report
import MacroCalls.Proofs.FormatString
import MacroCalls.Proofs.Labels
import MacroCalls.Proofs.Guarded.Diagnosis
import MacroCalls.Proofs.Json.Reading
import MacroCalls.Proofs.FormatLanguage
import MacroCalls.Proofs.RoundTrip
import MacroCalls.Proofs.Columns
import MacroCalls.Proofs.Rules
import MacroCalls.Proofs.Carets
import MacroCalls.Proofs.Alignment
import MacroCalls.Proofs.Markers
import MacroCalls.Proofs.Pieces
import MacroCalls.Proofs.Placement
import MacroCalls.Proofs.Splicing
import MacroCalls.Proofs.Unplaced
import MacroCalls.Proofs.Relayout
import MacroCalls.Proofs.Finality
import MacroCalls.Proofs.Schedules
import MacroCalls.Proofs.Course
import MacroCalls.Proofs.SingleSlot
import MacroCalls.Proofs.Json.Validity
import MacroCalls.Proofs.Stability
import MacroCalls.Proofs.Munch
import MacroCalls.Proofs.Scanning
import MacroCalls.Proofs.Classification
import MacroCalls.Proofs.FormatTiling
import MacroCalls.Proofs.FormatBlame
import MacroCalls.Proofs.Counting
import MacroCalls.Proofs.LabelOrder
import MacroCalls.Proofs.Trails
import MacroCalls.Proofs.Walks
import MacroCalls.Proofs.Lines
import MacroCalls.Proofs.Boundaries
import MacroCalls.Proofs.Faults
import MacroCalls.Proofs.Codes
import MacroCalls.Proofs.Quoting
import MacroCalls.Proofs.Outlines
import MacroCalls.Proofs.Wrapping
import MacroCalls.Proofs.Decoration
import MacroCalls.Proofs.Gutters
import MacroCalls.Proofs.Respacing
import MacroCalls.Proofs.Json.Parts
import MacroCalls.Proofs.Tags
import MacroCalls.Proofs.WholeReports
import MacroCalls.Proofs.Depths
