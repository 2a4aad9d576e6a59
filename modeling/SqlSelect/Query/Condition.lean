import SqlSelect.Query.Expr

/-!
# Conditions

The filter trees of `WHERE` and `ON`. Conjunctions and disjunctions are groups of any number of
members. Joining with `and` or `or` extends a group of that kind on the left and puts everything
else into a new group.
-/

namespace SqlSelect

/-- A condition on rows. -/
inductive Condition where
  /-- every member holds -/
  | all (members : List Condition)
  /-- some member holds -/
  | any (members : List Condition)
  | not (c : Condition)
  | compare (left : Expr) (op : Comparison) (right : Expr)
  | isNull (e : Expr) (negated : Bool)
  | inList (e : Expr) (list : List Expr) (negated : Bool)
  | like (e : Expr) (pattern : Expr) (negated : Bool) (ignoreCase : Bool)

namespace Condition

mutual

/-- Equality of conditions. -/
protected def beq : Condition → Condition → Bool
  | .all xs, .all ys => Condition.beqAll xs ys
  | .any xs, .any ys => Condition.beqAll xs ys
  | .not c, .not d => c.beq d
  | .compare a op b, .compare c op' d => a == c && op == op' && b == d
  | .isNull e n, .isNull e' n' => e == e' && n == n'
  | .inList e xs n, .inList e' ys n' => e == e' && xs == ys && n == n'
  | .like e p n i, .like e' p' n' i' => e == e' && p == p' && n == n' && i == i'
  | _, _ => false

/-- Equality of lists of conditions. -/
protected def beqAll : List Condition → List Condition → Bool
  | [], [] => true
  | x :: xs, y :: ys => x.beq y && Condition.beqAll xs ys
  | _, _ => false

end

instance : BEq Condition := ⟨Condition.beq⟩

/-- Compare a column with a literal. -/
def compareValue (c : Column) (op : Comparison) (v : Value) : Condition :=
  .compare (.column c) op (.literal v)

/-- Two columns are equal. -/
def columnsEqual (c d : Column) : Condition :=
  .compare (.column c) .equal (.column d)

/-- A column is null, or is not. -/
def columnIsNull (c : Column) (negated : Bool) : Condition :=
  .isNull (.column c) negated

/-- A column is among literals, or is not. -/
def columnInList (c : Column) (values : List Value) (negated : Bool) : Condition :=
  .inList (.column c) (values.map .literal) negated

/-- A column is like a pattern given as a literal. -/
def columnLike (c : Column) (pattern : Value) (ignoreCase : Bool) : Condition :=
  .like (.column c) (.literal pattern) false ignoreCase

/-- The condition that `c` does not hold. -/
def negate (c : Condition) : Condition := .not c

/-- Both conditions hold. -/
def and : Condition → Condition → Condition
  | .all members, d => .all (members ++ [d])
  | c, d => .all [c, d]

/-- One of the conditions holds. -/
def or : Condition → Condition → Condition
  | .any members, d => .any (members ++ [d])
  | c, d => .any [c, d]

/-- The members of a group. -/
def members? : Condition → Option (List Condition)
  | .all members => some members
  | .any members => some members
  | _ => none

/-- Whether the condition is a group. -/
def isGroup : Condition → Bool
  | .all _ => true
  | .any _ => true
  | _ => false

end Condition

end SqlSelect
