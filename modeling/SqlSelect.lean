import SqlSelect.Text.Blank
import SqlSelect.Text.Digits
import SqlSelect.Ratio
import SqlSelect.Binary64.Basic
import SqlSelect.Binary64.Rounding
import SqlSelect.Decimal.Shortest
import SqlSelect.Decimal.Layout
import SqlSelect.Json.Token
import SqlSelect.Json.Tree
import SqlSelect.Json.Number
import SqlSelect.Json.Basic
import SqlSelect.Json.Document
import SqlSelect.Json.Print
import SqlSelect.Uuid
import SqlSelect.Calendar.Scan
import SqlSelect.Calendar.Date
import SqlSelect.Calendar.Timestamp
import SqlSelect.Value.Basic
import SqlSelect.Value.Codec
import SqlSelect.Lexeme
import SqlSelect.Query.Operator
import SqlSelect.Query.Name
import SqlSelect.Query.Expr
import SqlSelect.Query.Condition
import SqlSelect.Query.Clause
import SqlSelect.Query.Select
import SqlSelect.Sql.Quoting
import SqlSelect.Sql.Fragment
import SqlSelect.Sql.Spelling
import SqlSelect.Settings
import SqlSelect.OrderedMap
import SqlSelect.Database.Fault
import SqlSelect.Database.Row
import SqlSelect.Database.Catalog
import SqlSelect.Database.Session
import SqlSelect.Database.SharedFetch
import SqlSelect.Proofs.Induction
import SqlSelect.Proofs.Binding.Literals
import SqlSelect.Proofs.Relabeling
import SqlSelect.Proofs.Binding.Places
import SqlSelect.Proofs.Binding.Independence
import SqlSelect.Proofs.Binding.Template
import SqlSelect.Proofs.Binding.Pass
import SqlSelect.Proofs.Binding.Agreement
import SqlSelect.Proofs.Binding.Numbering
import SqlSelect.Proofs.Lexing.Token
import SqlSelect.Proofs.Lexing.Fragment
import SqlSelect.Proofs.Lexing.Spacing
import SqlSelect.Proofs.Lexing.Names
import SqlSelect.Proofs.Reading.Expr
import SqlSelect.Proofs.Reading.Condition
import SqlSelect.Proofs.Reading.Meaning
import SqlSelect.Proofs.Reading.NormalForm
import SqlSelect.Proofs.Reading.Select
import SqlSelect.Proofs.Building.Combination
import SqlSelect.Proofs.Building.Clauses
import SqlSelect.Proofs.Naming.Words
import SqlSelect.Proofs.Naming.Names
import SqlSelect.Proofs.Naming.Strategies
import SqlSelect.Proofs.Sessions.History
import SqlSelect.Proofs.Sessions.Sharing
import SqlSelect.Proofs.Lexing.Name
import SqlSelect.Proofs.OrderedMap
import SqlSelect.Proofs.Catalogs.Lookup
import SqlSelect.Proofs.Catalogs.Equality
import SqlSelect.Proofs.Catalogs.Rows
import SqlSelect.Proofs.Values.Equality
import SqlSelect.Proofs.Rows.FiniteMap
import SqlSelect.Proofs.Text.Digits
import SqlSelect.Proofs.Json.Literal
import SqlSelect.Proofs.Json.Numeral
import SqlSelect.Proofs.Ratio
import SqlSelect.Proofs.Json.Tokens
import SqlSelect.Proofs.Decimal.Shortest
import SqlSelect.Proofs.Json.Float
import SqlSelect.Proofs.Json.Text
import SqlSelect.Proofs.Json.Documents
import SqlSelect.Proofs.Calendar.Text
import SqlSelect.Proofs.Uuid
import SqlSelect.Proofs.Values.Export
import SqlSelect.Proofs.Binary64.Rounding
import SqlSelect.Proofs.Json.Number
import SqlSelect.Proofs.Calendar.Instant
import SqlSelect.Proofs.Values.Meaning
import SqlSelect.Proofs.Queries.Equality
import SqlSelect.Proofs.Naming.Conversion
import SqlSelect.Proofs.Settings
import SqlSelect.Proofs.Building.Strings
import SqlSelect.Proofs.Grouping
