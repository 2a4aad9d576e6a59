/-!
# Columns and tables

A name in one string is split at its first dot: what stands before it is the qualifier. Splitting
loses nothing (`join_splitQualifier`).
-/

namespace SqlSelect

/-- The part of a string before its first dot, and the part after it. Without a dot there is no
qualifier. -/
def splitQualifier (s : String) : Option String × String :=
  match s.toList.dropWhile (· != '.') with
  | [] => (none, s)
  | _ :: rest => (some (String.ofList (s.toList.takeWhile (· != '.'))), String.ofList rest)

/-- A name behind its qualifier and a dot. -/
def joinQualifier : Option String → String → String
  | none, name => name
  | some qualifier, name => qualifier ++ "." ++ name

theorem join_splitQualifier (s : String) :
    joinQualifier (splitQualifier s).1 (splitQualifier s).2 = s := by
  unfold splitQualifier
  split
  · rfl
  · rename_i c rest h
    have hc : c = '.' := by
      have := List.head?_dropWhile_not (· != '.') s.toList
      simpa [h] using this
    apply String.toList_inj.1
    have happ := List.takeWhile_append_dropWhile (p := (· != '.')) (l := s.toList)
    rw [h, hc] at happ
    simpa [joinQualifier] using happ

/-- A column, possibly of a named table. -/
structure Column where
  table : Option String
  name : String
deriving DecidableEq

namespace Column

/-- A column without a table; dots stay in the name. -/
def bare (name : String) : Column := ⟨none, name⟩

/-- A column of a table. -/
def qualified (table name : String) : Column := ⟨some table, name⟩

/-- The column that a string names. -/
def ofString (s : String) : Column :=
  ⟨(splitQualifier s).1, (splitQualifier s).2⟩

/-- The text of a column for people. -/
def describe (c : Column) : String :=
  "col: " ++ joinQualifier c.table c.name

/-- The text of a column with its type. -/
def inspect (c : Column) : String :=
  "Column(" ++ c.describe ++ ")"

end Column

/-- A source table, possibly in a schema and under another name, its label. -/
structure TableRef where
  schema : Option String
  name : String
  label : Option String
deriving DecidableEq

namespace TableRef

/-- A table without a schema; dots stay in the name. -/
def bare (name : String) : TableRef := ⟨none, name, none⟩

/-- A table of a schema. -/
def qualified (schema name : String) : TableRef := ⟨some schema, name, none⟩

/-- The table that a string names. -/
def ofString (s : String) : TableRef :=
  ⟨(splitQualifier s).1, (splitQualifier s).2, none⟩

/-- The table under another name, which replaces an earlier one. -/
def withLabel (t : TableRef) (label : String) : TableRef :=
  { t with label := some label }

end TableRef

end SqlSelect
