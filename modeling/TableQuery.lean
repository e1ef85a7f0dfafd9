import TableQuery.Binary64.Basic
import TableQuery.Binary64.Layout
import TableQuery.Binary64.Numeral
import TableQuery.Binary64.Rounding
import TableQuery.Binary64.Shortest
import TableQuery.Binary64.Truncation
import TableQuery.Condition.Basic
import TableQuery.Condition.Reading
import TableQuery.Condition.Relation
import TableQuery.Engine.Basic
import TableQuery.Engine.Settings
import TableQuery.Fields
import TableQuery.Grouping
import TableQuery.Journal.Event
import TableQuery.Journal.Severity
import TableQuery.Journal.Span
import TableQuery.Json.Basic
import TableQuery.Json.Number
import TableQuery.Json.Numeral
import TableQuery.Json.Quoted
import TableQuery.Json.Token
import TableQuery.Json.Tree
import TableQuery.Paging
import TableQuery.Proofs.Binary64.Units
import TableQuery.Proofs.Condition.Casting
import TableQuery.Proofs.Condition.Chain
import TableQuery.Proofs.Condition.Comparison
import TableQuery.Proofs.Condition.Connective
import TableQuery.Proofs.Condition.Evaluation
import TableQuery.Proofs.Condition.Groups
import TableQuery.Proofs.Condition.Joining
import TableQuery.Proofs.Condition.Parentheses
import TableQuery.Proofs.Condition.Pieces
import TableQuery.Proofs.Condition.Reading
import TableQuery.Proofs.Condition.Unread
import TableQuery.Proofs.FirstSeen
import TableQuery.Proofs.Grouping.Classes
import TableQuery.Proofs.Grouping.Partition
import TableQuery.Proofs.Paging
import TableQuery.Proofs.Query.Agreement
import TableQuery.Proofs.Query.Origin
import TableQuery.Proofs.Query.Pages
import TableQuery.Proofs.Query.Restriction
import TableQuery.Proofs.Query.Stages
import TableQuery.Proofs.Row.Agreement
import TableQuery.Proofs.Row.Insertion
import TableQuery.Proofs.Selection
import TableQuery.Proofs.Sorting.Comparison
import TableQuery.Proofs.Sorting.Preorder
import TableQuery.Proofs.Sorting.Stability
import TableQuery.Proofs.Text.Blank
import TableQuery.Proofs.Text.Cut
import TableQuery.Proofs.Text.Words
import TableQuery.Proofs.Value.SortOrder
import TableQuery.Query.Basic
import TableQuery.Query.Document
import TableQuery.QueryError
import TableQuery.Row.Basic
import TableQuery.Row.Json
import TableQuery.Selection
import TableQuery.Sorting
import TableQuery.Text.Blank
import TableQuery.Text.Cut
import TableQuery.Text.Digits
import TableQuery.Timestamp.Basic
import TableQuery.Timestamp.Calendar
import TableQuery.Timestamp.Layout
import TableQuery.Timestamp.Reading
import TableQuery.Value.Basic
import TableQuery.Value.Order
import TableQuery.Proofs.Binary64.Rounding
import TableQuery.Proofs.Text.Digits
import TableQuery.Proofs.Value.Agreement
import TableQuery.Proofs.Binary64.Decimal
import TableQuery.Proofs.Binary64.Shortest
import TableQuery.Proofs.Binary64.Layout
import TableQuery.Proofs.Json.Number
import TableQuery.Proofs.Query.Document
import TableQuery.Proofs.Query.Counts
import TableQuery.Proofs.Journal.Span
import TableQuery.Proofs.Query.Journal
import TableQuery.Proofs.Condition.Dangling
import TableQuery.Proofs.Query.Dangling
import TableQuery.Proofs.Value.Kind
import TableQuery.Proofs.Condition.Uniform
import TableQuery.Proofs.Timestamp.Calendar
import TableQuery.Proofs.Timestamp.Reading
import TableQuery.Proofs.Condition.Relation
import TableQuery.Proofs.Value.Literal
import TableQuery.Proofs.Condition.Display
import TableQuery.Proofs.Query.Comparison
import TableQuery.Proofs.Json.Numeral
import TableQuery.Proofs.Json.Quoted
import TableQuery.Proofs.Json.Reading
import TableQuery.Proofs.Query.RoundTrip
import TableQuery.Proofs.Row.OrderedMap
import TableQuery.Proofs.Query.Making
import TableQuery.Proofs.Row.RoundTrip
import TableQuery.Proofs.Json.Decoding
import TableQuery.Proofs.Value.Strict
import TableQuery.Proofs.Aggregate.Greatest
import TableQuery.Proofs.Grouping.Columns
import TableQuery.Proofs.Row.SameFields
import TableQuery.Proofs.Text.Terms
import TableQuery.Proofs.Query.SelectTerms
import TableQuery.Proofs.Binary64.Truncation
import TableQuery.Proofs.Binary64.Exact
import TableQuery.Proofs.Value.Exact
import TableQuery.Proofs.Value.Comparing
import TableQuery.Proofs.Value.Equality
import TableQuery.Proofs.Query.Failure
import TableQuery.Proofs.Journal.Gate
import TableQuery.Proofs.Journal.Lifecycle
import TableQuery.Proofs.StableSort
import TableQuery.Proofs.Text.Bytes
import TableQuery.Proofs.Json.Strings
import TableQuery.Proofs.Journal.Line
import TableQuery.Proofs.Grouping.Keys
import TableQuery.Proofs.Sorting.Successive
import TableQuery.Proofs.Selection.Expression
import TableQuery.Proofs.Condition.Leaves
import TableQuery.Proofs.Grouping.Buckets
import TableQuery.Proofs.Paging.Counting
