import SqlSelect.Query.Clause

/-!
# Select statements

A `Select` is the content of a `SELECT` statement, clause by clause. It is built by steps, each of
which touches one clause: lists grow at their end, `distinct`, `limit` and `offset` keep the last
call, and conditions are joined onto the one before.
-/

namespace SqlSelect

/-- A `SELECT` statement. `distinct` is `none` for all rows, an empty list for distinct rows, and a
list of columns for rows distinct in those. -/
structure Select where
  distinct : Option (List Column) := none
  projections : List Projection := []
  tables : List TableRef := []
  joins : List Join := []
  condition : Option Condition := none
  groups : List Projection := []
  sorts : List SortKey := []
  limit : Option UInt64 := none
  offset : Option UInt64 := none
deriving BEq

namespace Select

/-- The statement with no clause. -/
def empty : Select := {}

/-- Keep distinct rows only. -/
def distinctRows (s : Select) : Select :=
  { s with distinct := some [] }

/-- Keep rows that are distinct in some columns. -/
def distinctOn (s : Select) (columns : List Column) : Select :=
  { s with distinct := some columns }

/-- Add a projection. -/
def projectOne (s : Select) (projection : Projection) : Select :=
  { s with projections := s.projections ++ [projection] }

/-- Add projections. -/
def project (s : Select) (projections : List Projection) : Select :=
  { s with projections := s.projections ++ projections }

/-- Add a source table. -/
def fromTable (s : Select) (table : TableRef) : Select :=
  { s with tables := s.tables ++ [table] }

/-- Add a join. -/
def join (s : Select) (kind : JoinKind) (table : TableRef) (condition : Condition) : Select :=
  { s with joins := s.joins ++ [⟨kind, table, condition⟩] }

/-- Add an inner join. -/
def innerJoin (s : Select) (table : TableRef) (condition : Condition) : Select :=
  s.join .inner table condition

/-- Add a left join. -/
def leftJoin (s : Select) (table : TableRef) (condition : Condition) : Select :=
  s.join .left table condition

/-- Demand a condition besides the present one. -/
def filter (s : Select) (c : Condition) : Select :=
  { s with condition := some (match s.condition with | some current => current.and c | none => c) }

/-- Accept a condition instead of the present one. -/
def orFilter (s : Select) (c : Condition) : Select :=
  { s with condition := some (match s.condition with | some current => current.or c | none => c) }

/-- Add a grouping. -/
def groupBy (s : Select) (group : Projection) : Select :=
  { s with groups := s.groups ++ [group] }

/-- Add a sort key. -/
def orderBy (s : Select) (sort : SortKey) : Select :=
  { s with sorts := s.sorts ++ [sort] }

/-- Take at most so many rows. -/
def withLimit (s : Select) (rows : UInt64) : Select :=
  { s with limit := some rows }

/-- Skip so many rows. -/
def withOffset (s : Select) (rows : UInt64) : Select :=
  { s with offset := some rows }

/-- One step of building a statement. -/
inductive Step where
  | distinctRows
  | distinctOn (columns : List Column)
  | projectOne (projection : Projection)
  | project (projections : List Projection)
  | fromTable (table : TableRef)
  | join (kind : JoinKind) (table : TableRef) (condition : Condition)
  | innerJoin (table : TableRef) (condition : Condition)
  | leftJoin (table : TableRef) (condition : Condition)
  | filter (condition : Condition)
  | orFilter (condition : Condition)
  | groupBy (group : Projection)
  | orderBy (sort : SortKey)
  | withLimit (rows : UInt64)
  | withOffset (rows : UInt64)

/-- Take a step. -/
def apply (s : Select) : Step → Select
  | .distinctRows => s.distinctRows
  | .distinctOn columns => s.distinctOn columns
  | .projectOne projection => s.projectOne projection
  | .project projections => s.project projections
  | .fromTable table => s.fromTable table
  | .join kind table condition => s.join kind table condition
  | .innerJoin table condition => s.innerJoin table condition
  | .leftJoin table condition => s.leftJoin table condition
  | .filter condition => s.filter condition
  | .orFilter condition => s.orFilter condition
  | .groupBy group => s.groupBy group
  | .orderBy sort => s.orderBy sort
  | .withLimit rows => s.withLimit rows
  | .withOffset rows => s.withOffset rows

/-- The statement built by some steps. -/
def build (steps : List Step) : Select :=
  steps.foldl apply empty

theorem build_append (steps : List Step) (step : Step) :
    build (steps ++ [step]) = (build steps).apply step := by
  simp [build, List.foldl_append]

end Select

end SqlSelect
