import FuzzyInference.Activation
import FuzzyInference.Assignment
import FuzzyInference.Catalogue
import FuzzyInference.CommandLine
import FuzzyInference.Controller
import FuzzyInference.Decimal.Binary
import FuzzyInference.Decimal.Layout
import FuzzyInference.Decimal.Reader
import FuzzyInference.Decimal.Rounding
import FuzzyInference.Decimal.Whole
import FuzzyInference.Defuzzifier
import FuzzyInference.Document.Moment
import FuzzyInference.Document.Sections
import FuzzyInference.Document.Toml.Moment
import FuzzyInference.Document.Toml.Number
import FuzzyInference.Document.Toml.Reader
import FuzzyInference.Document.Toml.Text
import FuzzyInference.Document.Toml.Tree
import FuzzyInference.Document.Value
import FuzzyInference.Engine.Basic
import FuzzyInference.Engine.Configure
import FuzzyInference.Engine.Cycle
import FuzzyInference.Engine.Document
import FuzzyInference.Engine.Inspection
import FuzzyInference.Error
import FuzzyInference.Event
import FuzzyInference.Fault
import FuzzyInference.Formula.Expr
import FuzzyInference.Formula.Parser
import FuzzyInference.Formula.Token
import FuzzyInference.FuzzySet.Aggregated
import FuzzyInference.FuzzySet.Basic
import FuzzyInference.FuzzySet.Cumulative
import FuzzyInference.Hedge
import FuzzyInference.Index
import FuzzyInference.Main
import FuzzyInference.Name
import FuzzyInference.Norm
import FuzzyInference.Options
import FuzzyInference.Outcome
import FuzzyInference.Position
import FuzzyInference.Proofs.Assembly
import FuzzyInference.Proofs.Cycle
import FuzzyInference.Proofs.Dangling
import FuzzyInference.Proofs.Disabled
import FuzzyInference.Proofs.Faults.Controller
import FuzzyInference.Proofs.Faults.Cycle
import FuzzyInference.Proofs.Faults.Roots
import FuzzyInference.Proofs.Faults.Sets
import FuzzyInference.Proofs.Faults.Steps
import FuzzyInference.Proofs.Faults.Terms
import FuzzyInference.Proofs.Firing
import FuzzyInference.Proofs.Frame
import FuzzyInference.Proofs.History
import FuzzyInference.Proofs.Locality
import FuzzyInference.Proofs.Marks
import FuzzyInference.Proofs.Operators
import FuzzyInference.Proofs.Range
import FuzzyInference.Proofs.Readiness
import FuzzyInference.Proofs.Reading
import FuzzyInference.Proofs.References
import FuzzyInference.Proofs.Runs
import FuzzyInference.Proofs.Selection
import FuzzyInference.Proofs.Silence
import FuzzyInference.Proofs.Trail
import FuzzyInference.Proofs.Unset
import FuzzyInference.Proofs.Value
import FuzzyInference.Proofs.Walk
import FuzzyInference.Rule.Basic
import FuzzyInference.Rule.Codes
import FuzzyInference.Rule.Expression
import FuzzyInference.Rule.Reader
import FuzzyInference.Rule.Vocabulary
import FuzzyInference.RuleBlock
import FuzzyInference.Scalar.Basic
import FuzzyInference.Scalar.Floating
import FuzzyInference.Scalar.Tolerance
import FuzzyInference.Term.Basic
import FuzzyInference.Term.Parameters
import FuzzyInference.Term.Shape
import FuzzyInference.Text.Blank
import FuzzyInference.Text.Digit
import FuzzyInference.Text.Name
import FuzzyInference.Text.Printable
import FuzzyInference.Text.Quoted
import FuzzyInference.Text.Truth
import FuzzyInference.Variable.Basic
import FuzzyInference.Variable.Store
import FuzzyInference.Word
import FuzzyInference.Proofs.Restart
import FuzzyInference.Proofs.Memory
import FuzzyInference.Proofs.Grammar
import FuzzyInference.Proofs.Exact.Norms
import FuzzyInference.Proofs.Exact.Unordered
import FuzzyInference.Proofs.Words
import FuzzyInference.Proofs.Distinct
import FuzzyInference.Proofs.Decimal.Digits
import FuzzyInference.Proofs.Decimal.Written
import FuzzyInference.Proofs.Decimal.Nearest
import FuzzyInference.Proofs.Decimal.Shortest
import FuzzyInference.Proofs.Formula.Tokens
import FuzzyInference.Proofs.Formula.Longest
import FuzzyInference.Proofs.Formula.Printing
import FuzzyInference.Proofs.Rules.Language
import FuzzyInference.Proofs.Rules.Printing
import FuzzyInference.Proofs.Rules.Coded
import FuzzyInference.Proofs.Loading
import FuzzyInference.Proofs.Naming
import FuzzyInference.Proofs.Settings
import FuzzyInference.Proofs.Decimal.Significant
import FuzzyInference.Proofs.Rules.Weights
import FuzzyInference.Proofs.Assigning
import FuzzyInference.Proofs.Rows
import FuzzyInference.Proofs.Interrupted
import FuzzyInference.Proofs.Exact.Interpolation
import FuzzyInference.Proofs.Exact.Duality
import FuzzyInference.Proofs.Exact.Chains
import FuzzyInference.Proofs.Exact.Polarity
import FuzzyInference.Proofs.Totals
import FuzzyInference.Proofs.Choice
import FuzzyInference.Proofs.Ranking
import FuzzyInference.Proofs.Rules.Rewording
import FuzzyInference.Proofs.Rules.Parentheses
import FuzzyInference.Proofs.Decimal.Unpacked
import FuzzyInference.Proofs.Faults.Formulas
import FuzzyInference.Proofs.Formula.Signs
import FuzzyInference.Proofs.Reconfiguring
import FuzzyInference.Proofs.Equipping
import FuzzyInference.Proofs.Exact.Inversion
import FuzzyInference.Proofs.Decimal.Rounded
import FuzzyInference.Proofs.Decimal.Value
import FuzzyInference.Proofs.Decimal.Parts
import FuzzyInference.Proofs.Faults.Inverses
import FuzzyInference.Proofs.Faults.Entries
import FuzzyInference.Proofs.Faults.Sections
import FuzzyInference.Proofs.Faults.Causes
import FuzzyInference.Proofs.Faults.Documents
import FuzzyInference.Proofs.Rules.Noise
import FuzzyInference.Proofs.Segments
import FuzzyInference.Proofs.Exact.Polyline
import FuzzyInference.Proofs.Exact.Heights
import FuzzyInference.Proofs.Exact.Supports
import FuzzyInference.Proofs.Decimal.Closest
import FuzzyInference.Proofs.Decimal.Exactness
import FuzzyInference.Proofs.Faults.Degrees
import FuzzyInference.Proofs.Exact.Integrals
import FuzzyInference.Proofs.Exact.Averages
import FuzzyInference.Proofs.Exact.Complements
import FuzzyInference.Proofs.Decimal.Fixed
import FuzzyInference.Proofs.Exact.Shares
import FuzzyInference.Proofs.Faults.Weights
import FuzzyInference.Proofs.Zeros
import FuzzyInference.Proofs.Exporting.Membership
import FuzzyInference.Proofs.Exporting.Parameters
import FuzzyInference.Proofs.Formula.Longest
