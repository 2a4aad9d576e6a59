import SqlSelect.Json.Print
import SqlSelect.Json.Document
import SqlSelect.Uuid
import SqlSelect.Calendar.Timestamp

/-!
# Literal values

The values that a statement binds and that rows hold. Equality is that of the parts: floats by
number, documents by value, timestamps by instant. `describe` is the text of a value for people.
-/

namespace SqlSelect

/-- A literal of one of ten kinds. -/
inductive Value where
  | null
  | bool (b : Bool)
  | int (n : Int64)
  | float (x : Binary64)
  | text (s : String)
  | bytes (octets : List UInt8)
  | uuid (u : Uuid)
  | date (d : Date)
  | timestamp (t : Timestamp)
  | json (document : Json.Document)

namespace Value

/-- Equality of values; values of different kinds are never equal. -/
protected def beq : Value → Value → Bool
  | .null, .null => true
  | .bool a, .bool b => a == b
  | .int m, .int n => m == n
  | .float x, .float y => x == y
  | .text s, .text t => s == t
  | .bytes xs, .bytes ys => xs == ys
  | .uuid u, .uuid v => u == v
  | .date d, .date e => d == e
  | .timestamp t, .timestamp u => t == u
  | .json a, .json b => a == b
  | _, _ => false

instance : BEq Value := ⟨Value.beq⟩

/-- Whether the value is the null literal. -/
def isNull : Value → Bool
  | .null => true
  | _ => false

/-- The name of the value's kind. -/
def kind : Value → String
  | .null => "null"
  | .bool _ => "bool"
  | .int _ => "int"
  | .float _ => "float"
  | .text _ => "text"
  | .bytes _ => "bytes"
  | .uuid _ => "uuid"
  | .date _ => "date"
  | .timestamp _ => "timestamp"
  | .json _ => "json"

/-- The text of a value for people. Text stands in quotes as it is, and of octets only the number
is told. -/
def describe : Value → String
  | .null => "NULL"
  | .bool b => if b then "true" else "false"
  | .int n => String.ofList (Json.intChars n.toInt)
  | .float x => String.ofList (Decimal.plainChars x)
  | .text s => "\"" ++ s ++ "\""
  | .bytes octets => "<" ++ Nat.repr octets.length ++ " bytes>"
  | .uuid u => String.ofList u.chars
  | .date d => String.ofList d.chars
  | .timestamp t => String.ofList t.offsetChars
  | .json document => document.root.text

/-- The text of a value with its kind. -/
def inspect (v : Value) : String :=
  "Value::" ++ v.kind ++ "(" ++ v.describe ++ ")"

/-- A value, or null for none. -/
def ofOption : Option Value → Value
  | some v => v
  | none => .null

end Value

end SqlSelect
