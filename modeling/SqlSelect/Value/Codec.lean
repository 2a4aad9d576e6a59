import SqlSelect.Value.Basic

/-!
# Values in JSON

A value is written as an object with one member, whose key names the kind; null is written as the
bare string `"Null"`. A float that is not finite is written as `null`, which no float is read from.
-/

namespace SqlSelect.Value

open Json

/-- The JSON string of characters. -/
def stringJson (chars : List Char) : Json :=
  .string (String.ofList chars)

/-- A signed integer of 64 bits as a number. -/
def intNumber (n : Int64) : Number :=
  .int n.toInt ⟨n.le_toInt, Int.lt_trans n.toInt_lt (by decide)⟩

/-- An octet as a number. -/
def octetNumber (octet : UInt8) : Number :=
  .int octet.toNat ⟨by omega, by have := octet.toNat_lt; omega⟩

/-- A float as a number, or null if it is not finite. -/
def floatJson (x : Binary64) : Json :=
  if h : x.isFinite then .number (.float x h) else .null

/-- The object of one member. -/
def tagged (key : String) (payload : Json) : Json :=
  .object [(key, payload)]

/-- The JSON form of a value. -/
def toJson : Value → Json
  | .null => .string "Null"
  | .bool b => tagged "Bool" (.bool b)
  | .int n => tagged "Int" (.number (intNumber n))
  | .float x => tagged "Float" (floatJson x)
  | .text s => tagged "Text" (.string s)
  | .bytes octets => tagged "Bytes" (.array (octets.map fun o => .number (octetNumber o)))
  | .uuid u => tagged "Uuid" (stringJson u.chars)
  | .date d => tagged "Date" (stringJson d.chars)
  | .timestamp t => tagged "Timestamp" (stringJson t.zuluChars)
  | .json document => tagged "Json" document.root

/-- The JSON text of a value. -/
def toJsonText (v : Value) : String :=
  v.toJson.text

/-- A numeral that is an integer of 64 bits. -/
def int64? (n : Numeral) : Option Int64 :=
  match Number.ofNumeral? n with
  | some (.int n _) => if n < 0x8000000000000000 then some (Int64.ofInt n) else none
  | _ => none

/-- A numeral that is an integer from 0 to 255. -/
def octet? (n : Numeral) : Option UInt8 :=
  match Number.ofNumeral? n with
  | some (.int n _) => if 0 ≤ n ∧ n < 256 then some (UInt8.ofNat n.toNat) else none
  | _ => none

/-- The octets of an array's items. -/
def octets? : List Tree → Option (List UInt8)
  | [] => some []
  | .number n :: rest => do
    let octet ← octet? n
    let octets ← octets? rest
    some (octet :: octets)
  | _ => none

/-- Read a string payload. -/
def ofStringPayload? {α : Type} (read? : String → Option α) : Tree → Option α
  | .string units => (stringOfUnits? units).bind read?
  | _ => none

/-- The value of a payload, by the key it stands behind. -/
def ofPayload? (key : String) (payload : Tree) : Option Value :=
  match key, payload with
  | "Null", .null => some .null
  | "Bool", .bool b => some (.bool b)
  | "Int", .number n => (int64? n).map .int
  | "Float", .number n => (Number.ofNumeral? n).map fun x => .float x.toBinary64
  | "Text", payload => (ofStringPayload? some payload).map .text
  | "Bytes", .array items => (octets? items).map .bytes
  | "Uuid", payload => (ofStringPayload? Uuid.parse? payload).map .uuid
  | "Date", payload => (ofStringPayload? Date.parse? payload).map .date
  | "Timestamp", payload => (ofStringPayload? Timestamp.parse? payload).map .timestamp
  | "Json", payload => (Document.ofTree? (Document.maxDepth - 1) payload).map .json
  | _, _ => none

/-- The value that a tree stands for. The object around a payload counts as one container. -/
def ofTree? : Tree → Option Value
  | .string units =>
    match stringOfUnits? units with
    | some "Null" => some .null
    | _ => none
  | .object [(units, payload)] => (stringOfUnits? units).bind fun key => ofPayload? key payload
  | _ => none

/-- The value that a JSON text stands for. -/
def ofJsonText? (text : String) : Option Value :=
  (Tree.parse? text).bind ofTree?

example :
    (ofJsonText? " \x7b\"Float\": 1e2\x7d ").map toJsonText =
      some "\x7b\"Float\":100.0\x7d" := by decide +kernel

end SqlSelect.Value
