import Schemata.Path.Lookup
import Schemata.Json.Reader
import Schemata.Schema.Node
import Schemata.Fault
import Schemata.Proofs.Fields
import Schemata.Proofs.Lists
import Schemata.Proofs.Path.Assignment
import Schemata.Proofs.Path.Sequence
import Schemata.Proofs.Value.Distinct
import Schemata.Proofs.Constraint.Families
import Schemata.Proofs.Constraint.Registry
import Schemata.Proofs.Constraint.History
import Schemata.Proofs.Constraint.Required
import Schemata.Proofs.Constraint.Lengths
import Schemata.Proofs.Shapes
import Schemata.Proofs.Schema.Making
import Schemata.Proofs.Schema.Reversal
import Schemata.Proofs.Schema.Parsing
import Schemata.Proofs.Schema.Transforms
import Schemata.Proofs.Schema.Nodes
import Schemata.Proofs.Schema.Soundness
import Schemata.Proofs.Schema.RoundTrip
import Schemata.Proofs.Schema.Totality
import Schemata.Proofs.Path.Spelling
import Schemata.Proofs.Schema.Overlap
import Schemata.Proofs.Path.Extent
import Schemata.Proofs.Schema.Replies
import Schemata.Proofs.Schema.Exactness
import Schemata.Proofs.Schema.Calls
import Schemata.Proofs.Value.Keyed
import Schemata.Proofs.Report
import Schemata.Proofs.Schema.Failures
import Schemata.Proofs.Schema.Reporting
import Schemata.Proofs.Schema.Idempotence
import Schemata.Proofs.Value.Mutation
import Schemata.Proofs.Number.Rounding
import Schemata.Proofs.Number.Reals
import Schemata.Proofs.Constraint.Numbers
import Schemata.Proofs.Matching
import Schemata.Proofs.Value.Equality
import Schemata.Proofs.Text
import Schemata.Proofs.Number.Shortest
import Schemata.Proofs.Json.Grammar
import Schemata.Proofs.Json.Escapes
import Schemata.Proofs.Json.Tokens
import Schemata.Proofs.Json.Numbers
import Schemata.Proofs.Value.Numeral
import Schemata.Proofs.Json.Reading
import Schemata.Proofs.Json.RoundTrip
import Schemata.Proofs.Path.Locality
import Schemata.Proofs.Json.Completeness
import Schemata.Proofs.Json.Soundness
import Schemata.Proofs.Json.Cursor
import Schemata.Proofs.Json.Tracking
import Schemata.Proofs.Json.Scanning
import Schemata.Proofs.Json.Bounds
import Schemata.Proofs.Path.Grammar
import Schemata.Proofs.Schema.SharedInputs
import Schemata.Proofs.Value.Retained
import Schemata.Proofs.Schema.Collections
import Schemata.Proofs.Schema.Entries
import Schemata.Proofs.Calendar.Gregorian
import Schemata.Proofs.Calendar.Words
import Schemata.Proofs.Timestamp.Reading
import Schemata.Proofs.Timestamp.RoundTrip
import Schemata.Proofs.Path.Commuting
import Schemata.Proofs.Schema.Permutation
import Schemata.Proofs.Number.Nearest
import Schemata.Proofs.Number.Integers
import Schemata.Proofs.Value.BaseDigits
import Schemata.Proofs.Value.NumberText
import Schemata.Proofs.Value.Symmetry
import Schemata.Proofs.Value.FiniteMaps
import Schemata.Proofs.Value.Refusal
import Schemata.Proofs.Value.Symbols
import Schemata.Proofs.Supply
import Schemata.Proofs.Schema.Symbols
import Schemata.Proofs.Schema.SymbolSets
import Schemata.Proofs.Schema.Freshness
import Schemata.Proofs.Schema.MapReadings
import Schemata.Proofs.Regex.Search
import Schemata.Proofs.Regex.Scanning
import Schemata.Proofs.Pattern.Source
import Schemata.Proofs.Pattern.Datetime
