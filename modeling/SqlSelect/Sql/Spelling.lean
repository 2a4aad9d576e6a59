import SqlSelect.Sql.Fragment
import SqlSelect.Query.Select

/-!
# The SQL of a query

Every part of a query as a fragment. Members of a group that are groups themselves stand in
parentheses, and so does what `NOT` denies; binary expressions always do. The clauses of a statement
come in one fixed order.
-/

namespace SqlSelect

/-- A keyword as a fragment. -/
def Keyword.fragment (k : Keyword) : Fragment := [.keyword k]

/-- Keywords with spaces between them. -/
def keywords (ks : List Keyword) : Fragment :=
  Fragment.spaced (ks.map Keyword.fragment)

/-- A name behind its qualifier and a dot. -/
def qualifiedName : Option String → String → Fragment
  | none, name => [.name name]
  | some qualifier, name => [.name qualifier, .symbol .dot, .name name]

/-- A fragment under another name. -/
def aliased (f : Fragment) : Option String → Fragment
  | none => f
  | some label => f ++ [.space, .keyword .as, .space, .name label]

/-- A column with its table. -/
def Column.fragment (c : Column) : Fragment :=
  qualifiedName c.table c.name

/-- A table with its schema and alias. -/
def TableRef.fragment (t : TableRef) : Fragment :=
  aliased (qualifiedName t.schema t.name) t.label

namespace Expr

mutual

/-- An expression. The name of a function is written as it is. -/
def fragment : Expr → Fragment
  | .column c => c.fragment
  | .literal v => [.literal v]
  | .call function args =>
    .verbatim function :: Fragment.parenthesised (Fragment.commaSeparated (fragments args))
  | .binary left op right =>
    Fragment.parenthesised (Fragment.spaced [left.fragment, [.symbol op.symbol], right.fragment])
  | .null => [.keyword .null]
  | .star => [.symbol .star]

/-- Expressions one by one. -/
def fragments : List Expr → List Fragment
  | [] => []
  | x :: xs => x.fragment :: fragments xs

end

theorem fragments_eq_map (xs : List Expr) : fragments xs = xs.map fragment := by
  induction xs with
  | nil => rfl
  | cons x xs ih => simp [fragments, ih]

end Expr

namespace Condition

/-- The word `NOT`, or nothing. -/
def negation : Bool → List Keyword
  | true => [.not]
  | false => []

mutual

/-- A condition. An empty group is a constant, and so is membership in an empty list, of which
nothing is bound. -/
def fragment : Condition → Fragment
  | .all [] => [.keyword .true]
  | .all members => Fragment.joined [.space, .keyword .and, .space] (memberFragments members)
  | .any [] => [.keyword .false]
  | .any members => Fragment.joined [.space, .keyword .or, .space] (memberFragments members)
  | .not c => .keyword .not :: .space :: Fragment.parenthesised c.fragment
  | .compare left op right =>
    Fragment.spaced [left.fragment, [.symbol op.symbol], right.fragment]
  | .isNull e negated =>
    Fragment.spaced [e.fragment, keywords (.is :: (negation negated ++ [.null]))]
  | .inList _ [] negated => [.keyword (if negated then .true else .false)]
  | .inList e list negated =>
    Fragment.spaced [e.fragment, keywords (negation negated ++ [.in]),
      Fragment.parenthesised (Fragment.commaSeparated (list.map Expr.fragment))]
  | .like e pattern negated ignoreCase =>
    Fragment.spaced [e.fragment,
      keywords (negation negated ++ [if ignoreCase then .ilike else .like]), pattern.fragment]

/-- The members of a group one by one; those that are groups stand in parentheses. -/
def memberFragments : List Condition → List Fragment
  | [] => []
  | c :: rest =>
    (if c.isGroup then Fragment.parenthesised c.fragment else c.fragment) :: memberFragments rest

end

/-- A condition as a member of a group. -/
def memberFragment (c : Condition) : Fragment :=
  if c.isGroup then Fragment.parenthesised c.fragment else c.fragment

theorem memberFragments_eq_map (cs : List Condition) :
    memberFragments cs = cs.map memberFragment := by
  induction cs with
  | nil => rfl
  | cons c cs ih => simp [memberFragments, memberFragment, ih]

end Condition

/-- A projection. -/
def Projection.fragment : Projection → Fragment
  | .all => [.symbol .star]
  | .allOf table => [.name table, .symbol .dot, .symbol .star]
  | .expr e label => aliased e.fragment label

/-- What is grouped by: an expression without its alias. A wildcard groups by nothing. -/
def Projection.groupFragment? : Projection → Option Fragment
  | .all => none
  | .allOf _ => none
  | .expr e _ => some e.fragment

/-- The word of a direction. -/
def Direction.keyword : Direction → Keyword
  | .ascending => .asc
  | .descending => .desc

/-- The word of a place of nulls. -/
def NullsPlace.keyword : NullsPlace → Keyword
  | .first => .first
  | .last => .last

/-- A sort key. -/
def SortKey.fragment (k : SortKey) : Fragment :=
  Fragment.spaced ([k.expression.fragment] ++
    (k.direction.map fun d => [.keyword d.keyword]).toList ++
    (k.nulls.map fun place => keywords [.nulls, place.keyword]).toList)

/-- A join. -/
def Join.fragment (j : Join) : Fragment :=
  Fragment.spaced [keywords j.kind.keywords, j.table.fragment, [.keyword .on], j.condition.fragment]

namespace Select

/-- The word `DISTINCT`, with the columns that count. -/
def distinctClause : Option (List Column) → List Fragment
  | none => []
  | some [] => [[.keyword .distinct]]
  | some columns =>
    [.keyword .distinct ::
      Fragment.parenthesised (Fragment.commaSeparated (columns.map Column.fragment))]

/-- The projection list; an empty one is a star. -/
def projectionClause : List Projection → List Fragment
  | [] => [[.symbol .star]]
  | projections => [Fragment.commaSeparated (projections.map Projection.fragment)]

/-- A clause that is left out when it has no entries. -/
def listClause (words : List Keyword) : List Fragment → List Fragment
  | [] => []
  | entries => [keywords words, Fragment.commaSeparated entries]

/-- The `WHERE` clause. -/
def conditionClause : Option Condition → List Fragment
  | none => []
  | some c => [[.keyword .where], c.fragment]

/-- A clause of one count. -/
def countClause (word : Keyword) : Option UInt64 → List Fragment
  | none => []
  | some n => [[.keyword word], [.count n.toNat]]

/-- The clauses of a statement in order. -/
def clauses (s : Select) : List Fragment :=
  [[.keyword .select]] ++
  distinctClause s.distinct ++
  projectionClause s.projections ++
  listClause [.from] (s.tables.map TableRef.fragment) ++
  s.joins.map Join.fragment ++
  conditionClause s.condition ++
  listClause [.group, .by] (s.groups.filterMap Projection.groupFragment?) ++
  listClause [.order, .by] (s.sorts.map SortKey.fragment) ++
  countClause .limit s.limit ++
  countClause .offset s.offset

/-- A statement. -/
def fragment (s : Select) : Fragment :=
  Fragment.spaced s.clauses

/-- A statement with nothing bound before it. -/
def statement (s : Select) (q : Quoting) : Statement :=
  s.fragment.write q []

example :
    ((build [
      .project [.ofString "id", .ofString "u.*"],
      .fromTable ((TableRef.ofString "public.users").withLabel "u"),
      .filter (.compareValue (.ofString "id") .equal (.int 5))]).statement .whenNeeded).text =
      "SELECT id, u.* FROM public.users AS u WHERE id = $1" := by decide +kernel

end Select

end SqlSelect
