import SqlSelect.Proofs.Naming.Words

/-!
# The names of a query

The names of columns, tables, schemas and aliases that are written for a part of a query, listed
from the tree alone. They are its words without the functions, which are called by their names as
they are (`Select.names_words`). So the fragments of a statement hold exactly these names, in this
order (`Select.names_fragment`).
-/

namespace SqlSelect

open Fragment

/-! ## Listing the names -/

/-- The names of a column: its table and its own. -/
def Column.names (c : Column) : List String := c.table.toList ++ [c.name]

/-- The names of a table: its schema, its own and its alias. -/
def TableRef.names (t : TableRef) : List String := t.schema.toList ++ [t.name] ++ t.label.toList

namespace Expr

mutual

/-- The names in an expression from left to right. -/
def names : Expr → List String
  | .column c => c.names
  | .literal _ => []
  | .call _ args => namesOfAll args
  | .binary left _ right => left.names ++ right.names
  | .null => []
  | .star => []

/-- The names in expressions in order. -/
def namesOfAll : List Expr → List String
  | [] => []
  | x :: xs => x.names ++ namesOfAll xs

end

theorem namesOfAll_eq_flatMap (xs : List Expr) : namesOfAll xs = xs.flatMap names := by
  induction xs with
  | nil => rfl
  | cons x xs ih => rw [namesOfAll, ih, List.flatMap_cons]

end Expr

namespace Condition

mutual

/-- The names in a condition from left to right. Membership in an empty list is a constant: what
would be looked up is not written. -/
def names : Condition → List String
  | .all members => namesOfAll members
  | .any members => namesOfAll members
  | .not c => c.names
  | .compare left _ right => left.names ++ right.names
  | .isNull e _ => e.names
  | .inList _ [] _ => []
  | .inList e list _ => e.names ++ list.flatMap Expr.names
  | .like e pattern _ _ => e.names ++ pattern.names

/-- The names in conditions in order. -/
def namesOfAll : List Condition → List String
  | [] => []
  | c :: cs => c.names ++ namesOfAll cs

end

theorem namesOfAll_eq_flatMap (cs : List Condition) : namesOfAll cs = cs.flatMap names := by
  induction cs with
  | nil => rfl
  | cons c cs ih => rw [namesOfAll, ih, List.flatMap_cons]

end Condition

/-- The names of a projection: those of its expression and its alias, or the table of a wildcard. -/
def Projection.names : Projection → List String
  | .all => []
  | .allOf table => [table]
  | .expr e label => e.names ++ label.toList

/-- The names of a sort key. -/
def SortKey.names (k : SortKey) : List String := k.expression.names

/-- The names of a join. -/
def Join.names (j : Join) : List String := j.table.names ++ j.condition.names

/-- The names that are written for a statement. Of the groups these are the names in the expressions
that are grouped by. -/
def Select.names (s : Select) : List String :=
  s.distinct.elim [] (List.flatMap Column.names) ++
  s.projections.flatMap Projection.names ++
  s.tables.flatMap TableRef.names ++
  s.joins.flatMap Join.names ++
  s.condition.elim [] Condition.names ++
  (s.groups.filterMap Projection.grouped?).flatMap Expr.names ++
  s.sorts.flatMap SortKey.names

/-! ## Names among words -/

@[simp] theorem Word.name?_comp_name : Word.name? ∘ Word.name = some := rfl

theorem Column.names_words (c : Column) : c.words.filterMap Word.name? = c.names := by
  simp [words, names]

theorem TableRef.names_words (t : TableRef) : t.words.filterMap Word.name? = t.names := by
  simp [words, names]

theorem Expr.names_words (e : Expr) : e.words.filterMap Word.name? = e.names := by
  induction e with
  | column c => exact c.names_words
  | literal v => rfl
  | call function args ih =>
    rw [words, names, List.filterMap_cons, wordsOfAll_eq_flatMap, namesOfAll_eq_flatMap,
      List.filterMap_flatMap]
    exact List.flatMap_congr ih
  | binary left op right ihl ihr => rw [words, names, List.filterMap_append, ihl, ihr]
  | null => rfl
  | star => rfl

theorem Condition.names_words (c : Condition) : c.words.filterMap Word.name? = c.names := by
  induction c with
  | all members ih | any members ih =>
    rw [words, names, wordsOfAll_eq_flatMap, namesOfAll_eq_flatMap, List.filterMap_flatMap]
    exact List.flatMap_congr ih
  | inList e list negated =>
    cases list with
    | nil => rfl
    | cons x xs => simp [words, names, Expr.names_words, List.filterMap_flatMap]
  | not c ih => exact ih
  | _ => simp [words, names, Expr.names_words]

theorem Projection.names_words (p : Projection) : p.words.filterMap Word.name? = p.names := by
  cases p <;> simp [words, names, Expr.names_words]

theorem SortKey.names_words (k : SortKey) : k.words.filterMap Word.name? = k.names :=
  k.expression.names_words

theorem Join.names_words (j : Join) : j.words.filterMap Word.name? = j.names := by
  rw [words, names, List.filterMap_append, TableRef.names_words, Condition.names_words]

/-- The names of a statement are its words without the functions. -/
theorem Select.names_words (s : Select) : s.words.filterMap Word.name? = s.names := by
  have hdistinct : (s.distinct.elim [] (List.flatMap Column.words)).filterMap Word.name? =
      s.distinct.elim [] (List.flatMap Column.names) := by
    cases s.distinct <;> simp [List.filterMap_flatMap, Column.names_words]
  have hcondition : (s.condition.elim [] Condition.words).filterMap Word.name? =
      s.condition.elim [] Condition.names := by
    cases s.condition <;> simp [Condition.names_words]
  simp only [words, names, List.filterMap_append, List.filterMap_flatMap, hdistinct, hcondition,
    Projection.names_words, TableRef.names_words, Join.names_words, Expr.names_words,
    SortKey.names_words]

/-! ## The names of fragments -/

/-- The name that a piece writes. -/
@[simp] def Piece.name? : Piece → Option String
  | .name word => some word
  | _ => none

namespace Fragment

/-- The names in a fragment. -/
def names (f : Fragment) : List String := f.filterMap Piece.name?

@[simp] theorem names_cons (p : Piece) (f : Fragment) :
    names (p :: f) = p.name?.toList ++ f.names := by
  cases p <;> rfl

/-- The names of a fragment are its words without the functions. -/
theorem names_words (f : Fragment) : f.words.filterMap Word.name? = f.names := by
  rw [words, List.filterMap_filterMap]
  refine List.filterMap_congr fun p _ => ?_
  cases p <;> rfl

end Fragment

namespace Select

/-- The names of a statement's fragment are those of its clauses in order. -/
@[simp] theorem names_fragment (s : Select) : s.fragment.names = s.names := by
  rw [← s.fragment.names_words, s.words_fragment, s.names_words]

/-- What would be looked up in an empty list, wildcard groups and aliases of groups are not written.
-/
example :
    names {
      condition := some (.inList (.column ⟨none, "A"⟩) [] false)
      groups := [.allOf "B", .expr (.column ⟨some "t", "c"⟩) (some "D")] } = ["t", "c"] := rfl

end Select

end SqlSelect
