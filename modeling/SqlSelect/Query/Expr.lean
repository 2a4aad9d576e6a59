import SqlSelect.Query.Name
import SqlSelect.Query.Operator
import SqlSelect.Value.Basic

/-!
# Expressions

Scalar expressions. Only literals are bound; everything else is written into the statement.
Equality compares literals as values and all else part by part.
-/

namespace SqlSelect

/-- A scalar expression. -/
inductive Expr where
  | column (c : Column)
  | literal (v : Value)
  /-- a function by its name, applied to arguments -/
  | call (function : String) (args : List Expr)
  | binary (left : Expr) (op : Arithmetic) (right : Expr)
  /-- the keyword, which is not a literal -/
  | null
  /-- the star of `count(*)` -/
  | star

namespace Expr

mutual

/-- Equality of expressions. -/
protected def beq : Expr → Expr → Bool
  | .column c, .column d => c == d
  | .literal v, .literal w => v == w
  | .call f xs, .call g ys => f == g && Expr.beqAll xs ys
  | .binary a op b, .binary c op' d => a.beq c && op == op' && b.beq d
  | .null, .null => true
  | .star, .star => true
  | _, _ => false

/-- Equality of lists of expressions. -/
protected def beqAll : List Expr → List Expr → Bool
  | [], [] => true
  | x :: xs, y :: ys => x.beq y && Expr.beqAll xs ys
  | _, _ => false

end

instance : BEq Expr := ⟨Expr.beq⟩

/-- The column that a string names. -/
def ofString (s : String) : Expr := .column (Column.ofString s)

mutual

/-- The text of an expression for people. -/
def describe : Expr → String
  | .column c => c.describe
  | .literal v => "bind: " ++ v.describe
  | .call function args => function ++ "(" ++ String.intercalate ", " (describeAll args) ++ ")"
  | .binary left op right =>
    "(" ++ left.describe ++ " " ++ op.describe ++ " " ++ right.describe ++ ")"
  | .null => "NULL"
  | .star => "*"

/-- The texts of expressions for people. -/
def describeAll : List Expr → List String
  | [] => []
  | x :: xs => x.describe :: describeAll xs

end

/-- The text of an expression with its kind. -/
def inspect : Expr → String
  | .column c => "Column(" ++ c.describe ++ ")"
  | .literal v => "Bind(" ++ (Expr.literal v).describe ++ ")"
  | .call function args => "Function(" ++ (Expr.call function args).describe ++ ")"
  | .binary left op right => "Binary(" ++ (Expr.binary left op right).describe ++ ")"
  | .null => "Null"
  | .star => "WildCard(*)"

end Expr

end SqlSelect
