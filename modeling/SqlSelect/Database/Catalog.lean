import SqlSelect.Database.Row

/-!
# Table catalogs

A catalog knows the tables of a database by their object identifiers, in the order of the rows it
was read from. Names may repeat; looking one up finds the first.
-/

namespace SqlSelect

/-- The names of tables by object identifier. -/
structure Catalog where
  names : OrderedMap UInt32 String
deriving BEq

namespace Catalog

/-- The catalog of a database without tables. -/
def empty : Catalog := ⟨.empty⟩

/-- The catalog of pairs; a repeated identifier keeps its place and takes the last name. -/
def ofList (pairs : List (UInt32 × String)) : Catalog :=
  ⟨.ofList pairs⟩

/-- The entry of a row: first its identifier is read, then its name. -/
def entryOfRow (r : Row) : Except Fault (UInt32 × String) := do
  let oid ← r.oid "oid"
  let name ← r.text "relname"
  .ok (oid, name)

/-- The entries of rows, or the fault of the first row that has one. -/
def entriesOfRows : List Row → Except Fault (List (UInt32 × String))
  | [] => .ok []
  | r :: rest => do
    let entry ← entryOfRow r
    let entries ← entriesOfRows rest
    .ok (entry :: entries)

/-- The catalog of rows. -/
def ofRows (rows : List Row) : Except Fault Catalog :=
  (entriesOfRows rows).map ofList

/-- The name of the table with an identifier. -/
def name? (c : Catalog) (oid : UInt32) : Option String :=
  c.names.get? oid

/-- The identifier of the first table with a name. -/
def oid? (c : Catalog) (name : String) : Option UInt32 :=
  (c.names.entries.find? fun entry => entry.2 == name).map Prod.fst

/-- The identifiers with their names, in order. -/
def toList (c : Catalog) : List (UInt32 × String) :=
  c.names.entries

/-- The number of tables. -/
def size (c : Catalog) : Nat :=
  c.names.size

/-- Whether there are no tables. -/
def isEmpty (c : Catalog) : Bool :=
  c.names.isEmpty

end Catalog

end SqlSelect
