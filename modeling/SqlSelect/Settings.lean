import SqlSelect.Json.Document
import SqlSelect.Json.Print
import SqlSelect.Sql.Quoting

/-!
# Settings

The quoting of names is the one setting. In JSON, settings are an object whose other members are
ignored, or an array of at most the one setting. A missing setting has its default, a repeated one
is refused.
-/

namespace SqlSelect

open Json

/-- The strategy that a tree names: a string, or an object with that key and null. -/
def Quoting.ofTree? : Tree → Option Quoting
  | .string units => (stringOfUnits? units).bind ofName?
  | .object [(units, .null)] => (stringOfUnits? units).bind ofName?
  | _ => none

/-- How statements are written. -/
structure Settings where
  quoting : Quoting := .whenNeeded
deriving DecidableEq

namespace Settings

/-- The settings that hold when nothing is said. -/
def standard : Settings := {}

/-- The key of the quoting strategy. -/
def quotingKey : String := "identifier_quoting"

/-- Settings from the members of an object, behind the strategy that was found before. -/
def ofMembers? (found : Option Quoting) : List (List StringUnit × Tree) → Option Settings
  | [] => some (match found with | some q => ⟨q⟩ | none => standard)
  | (units, t) :: rest => do
    let key ← stringOfUnits? units
    if key = quotingKey then
      match found with
      | some _ => none
      | none =>
        let q ← Quoting.ofTree? t
        ofMembers? (some q) rest
    else ofMembers? found rest

/-- The settings of a tree. -/
def ofTree? : Tree → Option Settings
  | .object members => ofMembers? none members
  | .array [] => some standard
  | .array [t] => (Quoting.ofTree? t).map fun q => ⟨q⟩
  | _ => none

/-- The settings that a JSON text stands for. -/
def ofJsonText? (text : String) : Option Settings :=
  (Tree.parse? text).bind ofTree?

/-- The JSON form of settings. -/
def toJson (s : Settings) : Json :=
  .object [(quotingKey, .string s.quoting.name)]

/-- The JSON text of settings. -/
def toJsonText (s : Settings) : String :=
  s.toJson.text

example :
    ofJsonText? "\x7b\"x\":[1e999],\"identifier_quoting\":\"Never\"\x7d" = some ⟨.never⟩ := by
  decide +kernel

end Settings

end SqlSelect
