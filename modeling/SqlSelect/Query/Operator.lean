import SqlSelect.Lexeme

/-!
# Operators

Comparisons between expressions and arithmetic within them, each written as one symbol.
-/

namespace SqlSelect

/-- A comparison of two expressions. -/
inductive Comparison where
  | equal | notEqual | less | lessEqual | greater | greaterEqual
deriving DecidableEq

namespace Comparison

/-- The symbol of a comparison. -/
def symbol : Comparison → Symbol
  | .equal => .equal
  | .notEqual => .notEqual
  | .less => .less
  | .lessEqual => .lessEqual
  | .greater => .greater
  | .greaterEqual => .greaterEqual

/-- The text of a comparison for people. -/
def describe (op : Comparison) : String :=
  op.symbol.spelling

/-- The text of a comparison with its type. -/
def inspect (op : Comparison) : String :=
  "ComparatorOp(" ++ op.describe ++ ")"

end Comparison

/-- An operation on two expressions. -/
inductive Arithmetic where
  | add | subtract | multiply | divide | modulo | concat
deriving DecidableEq

namespace Arithmetic

/-- The symbol of an operation. -/
def symbol : Arithmetic → Symbol
  | .add => .plus
  | .subtract => .minus
  | .multiply => .star
  | .divide => .slash
  | .modulo => .percent
  | .concat => .concat

/-- The text of an operation for people. -/
def describe (op : Arithmetic) : String :=
  op.symbol.spelling

end Arithmetic

end SqlSelect
