import SqlSelect.Proofs.Binding.Literals

/-!
# The words of a query

The names of columns, tables, schemas and aliases and the names of functions, listed from the tree
alone in the order in which they are written. What is left out of the text is left out here: the
operand of a condition on an empty list, and among the groups the wildcards and the aliases.
`Select.words_fragment` shows that the fragments of a statement hold exactly these words, in this
order.
-/

namespace SqlSelect

open Fragment

/-- A word that a query brings along. -/
inductive Word where
  /-- of a column, a table, a schema or an alias, written as the quoting says -/
  | name (text : String)
  /-- of a function, written as it is -/
  | function (text : String)
deriving DecidableEq

namespace Word

/-- The text of a word without quotes. -/
def text : Word → String
  | .name text => text
  | .function text => text

/-- A word that is quoted where the quoting says so. -/
@[simp] def name? : Word → Option String
  | .name text => some text
  | .function _ => none

end Word

/-! ## Listing the words -/

/-- The words of a column: its table and its name. -/
def Column.words (c : Column) : List Word := c.table.toList.map .name ++ [.name c.name]

/-- The words of a table: its schema, its name and its alias. -/
def TableRef.words (t : TableRef) : List Word :=
  t.schema.toList.map .name ++ [.name t.name] ++ t.label.toList.map .name

namespace Expr

mutual

/-- The words in an expression from left to right. A function comes before its arguments. -/
def words : Expr → List Word
  | .column c => c.words
  | .literal _ => []
  | .call function args => .function function :: wordsOfAll args
  | .binary left _ right => left.words ++ right.words
  | .null => []
  | .star => []

/-- The words in expressions in order. -/
def wordsOfAll : List Expr → List Word
  | [] => []
  | x :: xs => x.words ++ wordsOfAll xs

end

theorem wordsOfAll_eq_flatMap (xs : List Expr) : wordsOfAll xs = xs.flatMap words := by
  induction xs with
  | nil => rfl
  | cons x xs ih => rw [wordsOfAll, ih, List.flatMap_cons]

end Expr

namespace Condition

mutual

/-- The words in a condition from left to right. Membership in an empty list is a constant: what
would be looked up is not written. -/
def words : Condition → List Word
  | .all members => wordsOfAll members
  | .any members => wordsOfAll members
  | .not c => c.words
  | .compare left _ right => left.words ++ right.words
  | .isNull e _ => e.words
  | .inList _ [] _ => []
  | .inList e list _ => e.words ++ list.flatMap Expr.words
  | .like e pattern _ _ => e.words ++ pattern.words

/-- The words in conditions in order. -/
def wordsOfAll : List Condition → List Word
  | [] => []
  | c :: cs => c.words ++ wordsOfAll cs

end

theorem wordsOfAll_eq_flatMap (cs : List Condition) : wordsOfAll cs = cs.flatMap words := by
  induction cs with
  | nil => rfl
  | cons c cs ih => rw [wordsOfAll, ih, List.flatMap_cons]

end Condition

/-- The words of a projection: those of its expression and its alias, or the table of a wildcard. -/
def Projection.words : Projection → List Word
  | .all => []
  | .allOf table => [.name table]
  | .expr e label => e.words ++ label.toList.map .name

/-- The words of a sort key. -/
def SortKey.words (k : SortKey) : List Word := k.expression.words

/-- The words of a join. -/
def Join.words (j : Join) : List Word := j.table.words ++ j.condition.words

/-- The words that are written for a statement. Of the groups these are the words in the expressions
that are grouped by. -/
def Select.words (s : Select) : List Word :=
  s.distinct.elim [] (List.flatMap Column.words) ++
  s.projections.flatMap Projection.words ++
  s.tables.flatMap TableRef.words ++
  s.joins.flatMap Join.words ++
  s.condition.elim [] Condition.words ++
  (s.groups.filterMap Projection.grouped?).flatMap Expr.words ++
  s.sorts.flatMap SortKey.words

/-! ## The words of composed fragments -/

/-- The word that a piece writes. -/
@[simp] def Piece.word? : Piece → Option Word
  | .name word => some (.name word)
  | .verbatim text => some (.function text)
  | _ => none

namespace Fragment

/-- The words in a fragment. -/
def words (f : Fragment) : List Word := f.filterMap Piece.word?

@[simp] theorem words_nil : words [] = [] := rfl

@[simp] theorem words_cons (p : Piece) (f : Fragment) :
    words (p :: f) = p.word?.toList ++ f.words := by
  cases p <;> rfl

@[simp] theorem words_append (f g : Fragment) : words (f ++ g) = f.words ++ g.words :=
  List.filterMap_append

@[simp] theorem words_commaSeparated (fs : List Fragment) :
    (commaSeparated fs).words = fs.flatMap words :=
  filterMap_joined rfl fs

@[simp] theorem words_spaced (fs : List Fragment) : (spaced fs).words = fs.flatMap words :=
  filterMap_joined rfl fs

@[simp] theorem words_parenthesised (f : Fragment) : (parenthesised f).words = f.words := by
  simp [parenthesised]

end Fragment

@[simp] theorem words_keywords (ks : List Keyword) : (keywords ks).words = [] := by
  simp [keywords, Keyword.fragment, List.flatMap_eq_nil_iff]

@[simp] theorem words_qualifiedName (qualifier : Option String) (name : String) :
    (qualifiedName qualifier name).words = qualifier.toList.map .name ++ [.name name] := by
  cases qualifier <;> rfl

@[simp] theorem words_aliased (f : Fragment) (label : Option String) :
    (aliased f label).words = f.words ++ label.toList.map .name := by
  cases label <;> simp [aliased]

/-! ## The words of the fragments of a query -/

@[simp] theorem Column.words_fragment (c : Column) : c.fragment.words = c.words :=
  words_qualifiedName c.table c.name

@[simp] theorem TableRef.words_fragment (t : TableRef) : t.fragment.words = t.words := by
  simp [TableRef.fragment, TableRef.words]

@[simp] theorem Expr.words_fragment (e : Expr) : e.fragment.words = e.words := by
  induction e with
  | column c => simp [Expr.fragment, Expr.words]
  | literal v => rfl
  | call function args ih =>
    simp only [Expr.fragment, Expr.words, fragments_eq_map, wordsOfAll_eq_flatMap]
    rw [words_cons, words_parenthesised, words_commaSeparated, List.flatMap_map]
    exact congrArg (Word.function function :: ·) (List.flatMap_congr ih)
  | binary left op right ihl ihr => simp [Expr.fragment, Expr.words, ihl, ihr]
  | null => rfl
  | star => rfl

namespace Condition

/-- A group holds the words of its members, whatever keyword stands between them. -/
theorem words_group (word : Keyword) {members : List Condition}
    (ih : ∀ c ∈ members, c.fragment.words = c.words) :
    (joined [.space, .keyword word, .space] (memberFragments members)).words =
      wordsOfAll members := by
  rw [Fragment.words, filterMap_joined rfl, memberFragments_eq_map, List.flatMap_map,
    wordsOfAll_eq_flatMap]
  refine List.flatMap_congr fun c hc => ?_
  rw [← ih c hc, memberFragment]
  split
  · exact words_parenthesised c.fragment
  · rfl

@[simp] theorem words_fragment (c : Condition) : c.fragment.words = c.words := by
  induction c with
  | all members ih =>
    cases members with
    | nil => rfl
    | cons c cs => exact words_group .and ih
  | any members ih =>
    cases members with
    | nil => rfl
    | cons c cs => exact words_group .or ih
  | not c ih => simp [fragment, words, ih]
  | compare left op right => simp [fragment, words]
  | isNull e negated => simp [fragment, words]
  | inList e list negated =>
    cases list with
    | nil => rfl
    | cons x xs => simp [fragment, words, List.flatMap_map]
  | like e pattern negated ignoreCase => simp [fragment, words]

end Condition

@[simp] theorem Projection.words_fragment (p : Projection) : p.fragment.words = p.words := by
  cases p <;> simp [Projection.fragment, Projection.words]

@[simp] theorem SortKey.words_fragment (k : SortKey) : k.fragment.words = k.words := by
  simp only [SortKey.fragment, SortKey.words, words_spaced, List.flatMap_append]
  cases k.direction <;> cases k.nulls <;> simp

@[simp] theorem Join.words_fragment (j : Join) : j.fragment.words = j.words := by
  simp [Join.fragment, Join.words]

namespace Select

theorem words_listClause (ks : List Keyword) (entries : List Fragment) :
    (listClause ks entries).flatMap Fragment.words = entries.flatMap Fragment.words := by
  cases entries <;> simp [listClause]

theorem words_countClause (word : Keyword) (n : Option UInt64) :
    (countClause word n).flatMap Fragment.words = [] := by
  cases n <;> simp [countClause]

/-- The words of a statement's fragment are those of its clauses in order. -/
@[simp] theorem words_fragment (s : Select) : s.fragment.words = s.words := by
  have hdistinct : (distinctClause s.distinct).flatMap Fragment.words =
      s.distinct.elim [] (List.flatMap Column.words) := by
    rcases s.distinct with _ | _ | ⟨c, cs⟩ <;> simp [distinctClause, List.flatMap_map]
  have hprojections : (projectionClause s.projections).flatMap Fragment.words =
      s.projections.flatMap Projection.words := by
    rcases s.projections with _ | ⟨p, ps⟩ <;> simp [projectionClause, List.flatMap_map]
  have hcondition : (conditionClause s.condition).flatMap Fragment.words =
      s.condition.elim [] Condition.words := by
    cases s.condition <;> simp [conditionClause]
  simp only [fragment, clauses, words_spaced, List.flatMap_append, words_listClause,
    words_countClause, hdistinct, hprojections, hcondition, Projection.groupFragments_eq_map,
    List.flatMap_map, TableRef.words_fragment, Join.words_fragment, SortKey.words_fragment,
    Expr.words_fragment, words]
  simp

end Select

end SqlSelect
