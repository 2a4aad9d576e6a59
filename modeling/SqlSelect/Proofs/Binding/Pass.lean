import SqlSelect.Proofs.Binding.Literals

/-!
# Writing in passes

A pass writes a part of a query by itself: it runs the passes of the smaller parts one after another
over one growing list of bound values, and puts their texts together when it has them all. The order
in which values are bound is the order in which passes run, and the order in which placeholders are
read is the order in which texts are put together. Nothing in a pass ties the two to each other;
`Writes` says that they agree, because both are the order of the pieces in a fragment.
-/

namespace SqlSelect

/-- A computation over the list of bound values. -/
abbrev Pass := StateM (List Value)

namespace Pass

/-- Bind a value and write its placeholder. -/
def bindValue (v : Value) : Pass String := do
  modify (· ++ [v])
  return String.ofList (placeholder (← get).length)

theorem run_bind {α β : Type} (w : Pass α) (k : α → Pass β) (binds : List Value) :
    (w >>= k).run binds = (k (w.run binds).1).run (w.run binds).2 := rfl

theorem run_pure {α : Type} (a : α) (binds : List Value) :
    (pure a : Pass α).run binds = (a, binds) := rfl

end Pass

open Pass

/-! ## The passes of a query -/

/-- A text in parentheses. -/
def parenthesise (text : String) : String := "(" ++ text ++ ")"

/-- A name behind its qualifier and a dot. -/
def qualify (q : Quoting) : Option String → String → String
  | none, name => q.quote name
  | some qualifier, name => q.quote qualifier ++ "." ++ q.quote name

/-- A text under another name. -/
def withAlias (q : Quoting) (text : String) : Option String → String
  | none => text
  | some label => " ".intercalate [text, "AS", q.quote label]

/-- The pass of a column. -/
def Column.pass (q : Quoting) (c : Column) : Pass String :=
  return qualify q c.table c.name

/-- The pass of a table. -/
def TableRef.pass (q : Quoting) (t : TableRef) : Pass String :=
  return withAlias q (qualify q t.schema t.name) t.label

namespace Expr

mutual

/-- The pass of an expression: operands from left to right, then the text around them. -/
def pass (q : Quoting) : Expr → Pass String
  | .column c => c.pass q
  | .literal v => bindValue v
  | .call function args => do
    let texts ← passes q args
    return function ++ parenthesise (", ".intercalate texts)
  | .binary left op right => do
    let leftText ← left.pass q
    let rightText ← right.pass q
    return parenthesise (" ".intercalate [leftText, op.symbol.spelling, rightText])
  | .null => return "NULL"
  | .star => return "*"

/-- The passes of expressions in order. -/
def passes (q : Quoting) : List Expr → Pass (List String)
  | [] => return []
  | x :: xs => do
    let text ← x.pass q
    let texts ← passes q xs
    return text :: texts

end

theorem passes_eq_mapM (q : Quoting) (xs : List Expr) : passes q xs = xs.mapM (pass q) := by
  induction xs with
  | nil => rfl
  | cons x xs ih => rw [passes, ih, List.mapM_cons]

end Expr

namespace Condition

/-- The words between a text and its pattern. -/
def likeWords : Bool → Bool → String
  | false, false => "LIKE"
  | false, true => "ILIKE"
  | true, false => "NOT LIKE"
  | true, true => "NOT ILIKE"

/-- The text of a group from the texts of its members. -/
def groupText (separator empty : String) : List String → String
  | [] => empty
  | texts => separator.intercalate texts

mutual

/-- The pass of a condition. On an empty list nothing is run at all. -/
def pass (q : Quoting) : Condition → Pass String
  | .all members => do
    let texts ← memberPasses q members
    return groupText " AND " "TRUE" texts
  | .any members => do
    let texts ← memberPasses q members
    return groupText " OR " "FALSE" texts
  | .not c => do
    let text ← c.pass q
    return " ".intercalate ["NOT", parenthesise text]
  | .compare left op right => do
    let leftText ← left.pass q
    let rightText ← right.pass q
    return " ".intercalate [leftText, op.symbol.spelling, rightText]
  | .isNull e negated => do
    let text ← e.pass q
    return " ".intercalate [text, if negated then "IS NOT NULL" else "IS NULL"]
  | .inList _ [] negated => return if negated then "TRUE" else "FALSE"
  | .inList e list negated => do
    let text ← e.pass q
    let texts ← list.mapM (Expr.pass q)
    return " ".intercalate
      [text, if negated then "NOT IN" else "IN", parenthesise (", ".intercalate texts)]
  | .like e pattern negated ignoreCase => do
    let text ← e.pass q
    let patternText ← pattern.pass q
    return " ".intercalate [text, likeWords negated ignoreCase, patternText]

/-- The passes of the members of a group; the texts of groups are put in parentheses. -/
def memberPasses (q : Quoting) : List Condition → Pass (List String)
  | [] => return []
  | c :: rest => do
    let text ← c.pass q
    let texts ← memberPasses q rest
    return (if c.isGroup then parenthesise text else text) :: texts

end

end Condition

/-- The pass of a projection. -/
def Projection.pass (q : Quoting) : Projection → Pass String
  | .all => return "*"
  | .allOf table => return q.quote table ++ "." ++ "*"
  | .expr e label => do
    let text ← e.pass q
    return withAlias q text label

/-- The pass of a sort key. -/
def SortKey.pass (q : Quoting) (k : SortKey) : Pass String := do
  let text ← k.expression.pass q
  let direction := match k.direction with
    | some .ascending => ["ASC"]
    | some .descending => ["DESC"]
    | none => []
  let nulls := match k.nulls with
    | some .first => ["NULLS FIRST"]
    | some .last => ["NULLS LAST"]
    | none => []
  return " ".intercalate ([text] ++ direction ++ nulls)

/-- The pass of a join: the table, then the condition. -/
def Join.pass (q : Quoting) (j : Join) : Pass String := do
  let table ← j.table.pass q
  let condition ← j.condition.pass q
  return " ".intercalate [j.kind.describe, table, "ON", condition]

namespace Select

/-- The texts of the distinct clause. -/
def distinctPass (q : Quoting) : Option (List Column) → Pass (List String)
  | none => return []
  | some [] => return ["DISTINCT"]
  | some columns => do
    let texts ← columns.mapM (Column.pass q)
    return ["DISTINCT" ++ parenthesise (", ".intercalate texts)]

/-- The texts of the projection list. -/
def projectionPass (q : Quoting) : List Projection → Pass (List String)
  | [] => return ["*"]
  | projections => do
    let texts ← projections.mapM (Projection.pass q)
    return [", ".intercalate texts]

/-- The texts of a list clause behind its words. -/
def listTexts (words : String) : List String → List String
  | [] => []
  | texts => [words, ", ".intercalate texts]

/-- The texts of a condition behind its word. -/
def conditionPass (q : Quoting) : Option Condition → Pass (List String)
  | none => return []
  | some c => do
    let text ← c.pass q
    return ["WHERE", text]

/-- The texts of a count behind its word. -/
def countTexts (word : String) : Option UInt64 → List String
  | none => []
  | some n => [word, String.ofList (Nat.toDigits 10 n.toNat)]

/-- The pass of a statement, clause after clause. -/
def pass (q : Quoting) (s : Select) : Pass String := do
  let distinct ← distinctPass q s.distinct
  let projections ← projectionPass q s.projections
  let tables ← s.tables.mapM (TableRef.pass q)
  let joins ← s.joins.mapM (Join.pass q)
  let condition ← conditionPass q s.condition
  let groups ← (s.groups.filterMap Projection.grouped?).mapM (Expr.pass q)
  let sorts ← s.sorts.mapM (SortKey.pass q)
  return " ".intercalate (["SELECT"] ++ distinct ++ projections ++ listTexts "FROM" tables ++
    joins ++ condition ++ listTexts "GROUP BY" groups ++ listTexts "ORDER BY" sorts ++
    countTexts "LIMIT" s.limit ++ countTexts "OFFSET" s.offset)

end Select

end SqlSelect
