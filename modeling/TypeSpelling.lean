import TypeSpelling.Alias.Entry
import TypeSpelling.Alias.Standard
import TypeSpelling.Alias.Table
import TypeSpelling.Canonical.Normalization
import TypeSpelling.Canonical.NormalizeError
import TypeSpelling.Canonical.Shape
import TypeSpelling.Canonical.Text
import TypeSpelling.Canonical.Union
import TypeSpelling.CommandLine.Arguments
import TypeSpelling.CommandLine.Directive
import TypeSpelling.CommandLine.LogFilter
import TypeSpelling.CommandLine.Run
import TypeSpelling.Diagnostic
import TypeSpelling.Main
import TypeSpelling.Pattern.Bracket
import TypeSpelling.Pattern.Escape
import TypeSpelling.Pattern.Flags
import TypeSpelling.Pattern.Row
import TypeSpelling.Pattern.WellFormed
import TypeSpelling.Peg.Expr
import TypeSpelling.Peg.Failure
import TypeSpelling.Peg.Grammar
import TypeSpelling.Peg.Ranked
import TypeSpelling.Pipeline
import TypeSpelling.Proofs.Accepting
import TypeSpelling.Proofs.Atoms
import TypeSpelling.Proofs.Batches
import TypeSpelling.Proofs.Brevity
import TypeSpelling.Proofs.Calls
import TypeSpelling.Proofs.CanonicalSpelling
import TypeSpelling.Proofs.Checks
import TypeSpelling.Proofs.Composing
import TypeSpelling.Proofs.Depth
import TypeSpelling.Proofs.Display
import TypeSpelling.Proofs.Distinction
import TypeSpelling.Proofs.Embedding
import TypeSpelling.Proofs.Enclosures
import TypeSpelling.Proofs.Grouping
import TypeSpelling.Proofs.Keywords
import TypeSpelling.Proofs.Lengths
import TypeSpelling.Proofs.Levels
import TypeSpelling.Proofs.Margins
import TypeSpelling.Proofs.Matching
import TypeSpelling.Proofs.Meaning
import TypeSpelling.Proofs.NormalForm
import TypeSpelling.Proofs.Normalizing
import TypeSpelling.Proofs.Offenders
import TypeSpelling.Proofs.Optionals
import TypeSpelling.Proofs.Parsing
import TypeSpelling.Proofs.Phrase
import TypeSpelling.Proofs.Places
import TypeSpelling.Proofs.QuotedBytes
import TypeSpelling.Proofs.Reading
import TypeSpelling.Proofs.Refusal
import TypeSpelling.Proofs.Reordering
import TypeSpelling.Proofs.Respacing
import TypeSpelling.Proofs.Respelling
import TypeSpelling.Proofs.Scanning
import TypeSpelling.Proofs.Shapes
import TypeSpelling.Proofs.SharedSpellings
import TypeSpelling.Proofs.ShorthandSpelling
import TypeSpelling.Proofs.Spans
import TypeSpelling.Proofs.Stability
import TypeSpelling.Proofs.Stages
import TypeSpelling.Proofs.StandardTable
import TypeSpelling.Proofs.TokenTexts
import TypeSpelling.Proofs.Tokens
import TypeSpelling.Proofs.Tracking
import TypeSpelling.Proofs.Trimming
import TypeSpelling.Proofs.UnionInvariant
import TypeSpelling.Proofs.UnionLengths
import TypeSpelling.Proofs.Unions
import TypeSpelling.Proofs.Viable
import TypeSpelling.Proofs.Visiting
import TypeSpelling.Proofs.Weights
import TypeSpelling.Proofs.Words
import TypeSpelling.Proofs.Writable
import TypeSpelling.Rendering
import TypeSpelling.Report
import TypeSpelling.Shorthand
import TypeSpelling.Sorting
import TypeSpelling.Source.Grammar
import TypeSpelling.Source.Nesting
import TypeSpelling.Source.Parse
import TypeSpelling.Source.ParseError
import TypeSpelling.Source.Ranking
import TypeSpelling.Source.Rule
import TypeSpelling.Source.Tree
import TypeSpelling.Text.Blank
import TypeSpelling.Text.Bytes
import TypeSpelling.Text.Letter
import TypeSpelling.Text.Number
import TypeSpelling.Text.Order
import TypeSpelling.Text.Split
import TypeSpelling.TypeExpr.Basic
import TypeSpelling.TypeExpr.Container
import TypeSpelling.TypeExpr.Display
import TypeSpelling.TypeExpr.Literal
import TypeSpelling.TypeExpr.Traversal
