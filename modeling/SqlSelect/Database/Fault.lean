/-!
# Faults

What can go wrong between a statement and its rows.
-/

namespace SqlSelect

/-- A failed query or a row that cannot be read. -/
inductive Fault where
  /-- the connection reports an error -/
  | connection (report : String)
  /-- a row has no such column -/
  | missingColumn (column : String)
  /-- a column holds a value of another kind than expected -/
  | undecodable (column expected found : String)
deriving DecidableEq

/-- The text of a fault. -/
def Fault.message : Fault → String
  | .connection report => "connection error: " ++ report
  | .missingColumn column => "missing column '" ++ column ++ "'"
  | .undecodable column expected found =>
    "cannot decode column '" ++ column ++ "': expected " ++ expected ++ ", found " ++ found

end SqlSelect
