import SqlSelect.Query.Condition

/-!
# Parts of clauses

Entries of the projection and grouping lists, sort keys and joins.
-/

namespace SqlSelect

/-- An entry of the projection list or of the grouping list. -/
inductive Projection where
  /-- every column -/
  | all
  /-- every column of one table -/
  | allOf (table : String)
  /-- an expression, possibly under another name -/
  | expr (e : Expr) (label : Option String)
deriving BEq

namespace Projection

/-- An expression without an alias. -/
def ofExpr (e : Expr) : Projection := .expr e none

/-- The column that a string names, even if the string ends in a star. -/
def ofColumnName (s : String) : Projection := .ofExpr (Expr.ofString s)

/-- The projection that a string names: `*` and `t.*` are wildcards, all else is a column. -/
def ofString (s : String) : Projection :=
  match s.toList.reverse with
  | ['*'] => .all
  | '*' :: '.' :: table => .allOf (String.ofList table.reverse)
  | _ => ofColumnName s

end Projection

/-- The direction of a sort. -/
inductive Direction where
  | ascending | descending
deriving DecidableEq

/-- Where nulls are sorted. -/
inductive NullsPlace where
  | first | last
deriving DecidableEq

/-- A sort key. What it leaves open is the database's choice. -/
structure SortKey where
  expression : Expr
  direction : Option Direction
  nulls : Option NullsPlace
deriving BEq

namespace SortKey

/-- Sort by an expression, all else left open. -/
def ofExpr (e : Expr) : SortKey := ⟨e, none, none⟩

/-- Sort upwards. -/
def ascending (e : Expr) : SortKey := ⟨e, some .ascending, none⟩

/-- Sort downwards. -/
def descending (e : Expr) : SortKey := ⟨e, some .descending, none⟩

/-- Sort by the column that a string names. -/
def ofString (s : String) : SortKey := ofExpr (Expr.ofString s)

/-- Sort nulls to one end. -/
def withNulls (k : SortKey) (place : NullsPlace) : SortKey :=
  { k with nulls := some place }

end SortKey

/-- The kind of a join. -/
inductive JoinKind where
  | inner | left | right | full
deriving DecidableEq

/-- The words of a join. -/
def JoinKind.keywords : JoinKind → List Keyword
  | .inner => [.inner, .join]
  | .left => [.left, .join]
  | .right => [.right, .join]
  | .full => [.full, .join]

/-- The words of a join, spelled. -/
def JoinKind.describe (kind : JoinKind) : String :=
  String.intercalate " " (kind.keywords.map Keyword.spelling)

/-- A table joined on a condition. -/
structure Join where
  kind : JoinKind
  table : TableRef
  condition : Condition
deriving BEq

end SqlSelect
