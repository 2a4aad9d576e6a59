import SqlSelect.Database.Fault
import SqlSelect.OrderedMap
import SqlSelect.Value.Basic

/-!
# Result rows

A row maps column names to values, in the order of the result. Reading a column as an object
identifier or as text fails with the fault that says why.
-/

namespace SqlSelect

/-- A row of a result. -/
structure Row where
  cells : OrderedMap String Value
deriving BEq

namespace Row

/-- The row without columns. -/
def empty : Row := ⟨.empty⟩

/-- The row with a value in a column. -/
def insert (r : Row) (column : String) (v : Value) : Row :=
  ⟨r.cells.insert column v⟩

/-- The row of pairs of column and value, inserted one after the other. -/
def ofList (pairs : List (String × Value)) : Row :=
  ⟨.ofList pairs⟩

/-- The value in a column. -/
def get? (r : Row) (column : String) : Option Value :=
  r.cells.get? column

/-- The columns with their values, in order. -/
def toList (r : Row) : List (String × Value) :=
  r.cells.entries

/-- The number of columns. -/
def size (r : Row) : Nat :=
  r.cells.size

/-- Whether there are no columns. -/
def isEmpty (r : Row) : Bool :=
  r.cells.isEmpty

/-- The value in a column that must be there. -/
def require (r : Row) (column : String) : Except Fault Value :=
  match r.get? column with
  | some v => .ok v
  | none => .error (.missingColumn column)

/-- A value as an unsigned integer of 32 bits. -/
def asOid? : Value → Option UInt32
  | .int n =>
    if 0 ≤ n.toInt ∧ n.toInt < 0x100000000 then some (UInt32.ofNat n.toInt.toNat) else none
  | _ => none

/-- A value as text. -/
def asText? : Value → Option String
  | .text s => some s
  | _ => none

/-- The value in a column, read as the expected type. -/
def read {α : Type} (expected : String) (as? : Value → Option α) (r : Row) (column : String) :
    Except Fault α := do
  let v ← r.require column
  match as? v with
  | some a => .ok a
  | none => .error (.undecodable column expected v.kind)

/-- The object identifier in a column. -/
def oid (r : Row) (column : String) : Except Fault UInt32 :=
  r.read "u32" asOid? column

/-- The text in a column. -/
def text (r : Row) (column : String) : Except Fault String :=
  r.read "text" asText? column

end Row

end SqlSelect
