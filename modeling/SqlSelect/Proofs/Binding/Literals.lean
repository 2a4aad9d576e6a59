import SqlSelect.Proofs.Induction
import SqlSelect.Sql.Spelling
import Mathlib.Data.List.Basic

/-!
# The literals of a query

The literals of every part of a query, listed from the tree alone. A condition on an empty list and
a wildcard among the groups contribute nothing. `Select.literals_fragment` shows that the fragments
of a statement hold exactly these literals, in this order.
-/

namespace SqlSelect

/-! ## Listing the literals -/

namespace Expr

mutual

/-- The literals of an expression from left to right. -/
def literals : Expr → List Value
  | .column _ => []
  | .literal v => [v]
  | .call _ args => literalsOfAll args
  | .binary left _ right => left.literals ++ right.literals
  | .null => []
  | .star => []

/-- The literals of expressions in order. -/
def literalsOfAll : List Expr → List Value
  | [] => []
  | x :: xs => x.literals ++ literalsOfAll xs

end

theorem literalsOfAll_eq_flatMap (xs : List Expr) : literalsOfAll xs = xs.flatMap literals := by
  induction xs with
  | nil => rfl
  | cons x xs ih => rw [literalsOfAll, ih, List.flatMap_cons]

end Expr

namespace Condition

mutual

/-- The literals of a condition from left to right. Membership in an empty list is a constant: even
the literals of what would be looked up are left out. -/
def literals : Condition → List Value
  | .all members => literalsOfAll members
  | .any members => literalsOfAll members
  | .not c => c.literals
  | .compare left _ right => left.literals ++ right.literals
  | .isNull e _ => e.literals
  | .inList _ [] _ => []
  | .inList e list _ => e.literals ++ list.flatMap Expr.literals
  | .like e pattern _ _ => e.literals ++ pattern.literals

/-- The literals of conditions in order. -/
def literalsOfAll : List Condition → List Value
  | [] => []
  | c :: cs => c.literals ++ literalsOfAll cs

end

theorem literalsOfAll_eq_flatMap (cs : List Condition) :
    literalsOfAll cs = cs.flatMap literals := by
  induction cs with
  | nil => rfl
  | cons c cs ih => rw [literalsOfAll, ih, List.flatMap_cons]

end Condition

/-- The literals of a projection. -/
def Projection.literals : Projection → List Value
  | .all => []
  | .allOf _ => []
  | .expr e _ => e.literals

/-- The literals of a sort key. -/
def SortKey.literals (k : SortKey) : List Value := k.expression.literals

/-- The literals of a join. -/
def Join.literals (j : Join) : List Value := j.condition.literals

/-- The literals of a statement: those of the projections, of the joins, of the condition, of the
groups and of the sort keys. A group has the literals of its expression; its alias is not written
and a wildcard is skipped. -/
def Select.literals (s : Select) : List Value :=
  s.projections.flatMap Projection.literals ++
  s.joins.flatMap Join.literals ++
  s.condition.elim [] Condition.literals ++
  s.groups.flatMap Projection.literals ++
  s.sorts.flatMap SortKey.literals

/-! ## The literals of composed fragments -/

attribute [simp] Piece.literal?

namespace Fragment

@[simp] theorem literals_nil : literals [] = [] := rfl

@[simp] theorem literals_cons (p : Piece) (f : Fragment) :
    literals (p :: f) = p.literal?.toList ++ f.literals := by
  cases p <;> rfl

theorem joined_cons_cons (separator f g : Fragment) (fs : List Fragment) :
    joined separator (f :: g :: fs) = f ++ separator ++ joined separator (g :: fs) := rfl

theorem spaced_pair (f g : Fragment) : spaced [f, g] = f ++ .space :: g :=
  List.append_assoc f [.space] g

theorem spaced_triple (f g h : Fragment) :
    spaced [f, g, h] = f ++ .space :: (g ++ .space :: h) := by
  rw [spaced, joined_cons_cons, ← spaced, spaced_pair, List.append_assoc, List.singleton_append]

/-- What is picked from joined fragments is picked from them one by one, if the separator has
nothing to pick. -/
theorem filterMap_joined {α : Type} {pick : Piece → Option α} {separator : Fragment}
    (h : separator.filterMap pick = []) (fs : List Fragment) :
    (joined separator fs).filterMap pick = fs.flatMap (List.filterMap pick) := by
  induction fs with
  | nil => rfl
  | cons f fs ih =>
    cases fs with
    | nil => simp [joined]
    | cons g fs =>
      rw [joined_cons_cons, List.filterMap_append, List.filterMap_append, h, ih, List.append_nil,
        ← List.flatMap_cons]

/-- A separator without literals leaves the literals of the joined fragments as they are. -/
theorem literals_joined {separator : Fragment} (h : separator.literals = [])
    (fs : List Fragment) : (joined separator fs).literals = fs.flatMap literals :=
  filterMap_joined h fs

@[simp] theorem literals_commaSeparated (fs : List Fragment) :
    (commaSeparated fs).literals = fs.flatMap literals :=
  literals_joined rfl fs

@[simp] theorem literals_spaced (fs : List Fragment) :
    (spaced fs).literals = fs.flatMap literals :=
  literals_joined rfl fs

@[simp] theorem literals_parenthesised (f : Fragment) :
    (parenthesised f).literals = f.literals := by
  simp [parenthesised, literals_append]

end Fragment

/-! ## The literals of the fragments of a query -/

open Fragment

@[simp] theorem literals_keywords (ks : List Keyword) : (keywords ks).literals = [] := by
  simp [keywords, Keyword.fragment, List.flatMap_eq_nil_iff]

@[simp] theorem literals_qualifiedName (qualifier : Option String) (name : String) :
    (qualifiedName qualifier name).literals = [] := by
  cases qualifier <;> rfl

@[simp] theorem literals_aliased (f : Fragment) (label : Option String) :
    (aliased f label).literals = f.literals := by
  cases label <;> simp [aliased, literals_append]

@[simp] theorem Column.literals_fragment (c : Column) : c.fragment.literals = [] :=
  literals_qualifiedName c.table c.name

@[simp] theorem TableRef.literals_fragment (t : TableRef) : t.fragment.literals = [] := by
  simp [TableRef.fragment]

@[simp] theorem Expr.literals_fragment (e : Expr) : e.fragment.literals = e.literals := by
  induction e with
  | column c => simp [Expr.fragment, Expr.literals]
  | literal v => rfl
  | call function args ih =>
    simp only [Expr.fragment, Expr.literals, fragments_eq_map, literalsOfAll_eq_flatMap]
    rw [literals_cons, literals_parenthesised, literals_commaSeparated, List.flatMap_map]
    exact List.flatMap_congr ih
  | binary left op right ihl ihr => simp [Expr.fragment, Expr.literals, ihl, ihr]
  | null => rfl
  | star => rfl

@[simp] theorem Condition.literals_memberFragment (c : Condition) :
    (memberFragment c).literals = c.fragment.literals := by
  unfold memberFragment
  split
  · exact literals_parenthesised c.fragment
  · rfl

/-- A group holds the literals of its members, whatever word stands between them. -/
theorem Condition.literals_group (word : Keyword) {members : List Condition}
    (ih : ∀ c ∈ members, c.fragment.literals = c.literals) :
    (joined [.space, .keyword word, .space] (memberFragments members)).literals =
      literalsOfAll members := by
  rw [literals_joined rfl, memberFragments_eq_map, List.flatMap_map, literalsOfAll_eq_flatMap]
  refine List.flatMap_congr fun c hc => ?_
  rw [literals_memberFragment, ih c hc]

@[simp] theorem Condition.literals_fragment (c : Condition) :
    c.fragment.literals = c.literals := by
  induction c with
  | all members ih =>
    cases members with
    | nil => rfl
    | cons c cs => exact literals_group .and ih
  | any members ih =>
    cases members with
    | nil => rfl
    | cons c cs => exact literals_group .or ih
  | not c ih => simp [Condition.fragment, Condition.literals, ih]
  | compare left op right => simp [Condition.fragment, Condition.literals]
  | isNull e negated => simp [Condition.fragment, Condition.literals]
  | inList e list negated =>
    cases list with
    | nil => rfl
    | cons x xs => simp [Condition.fragment, Condition.literals, List.flatMap_map]
  | like e pattern negated ignoreCase => simp [Condition.fragment, Condition.literals]

@[simp] theorem Projection.literals_fragment (p : Projection) :
    p.fragment.literals = p.literals := by
  cases p <;> simp [Projection.fragment, Projection.literals]

@[simp] theorem SortKey.literals_fragment (k : SortKey) : k.fragment.literals = k.literals := by
  simp only [SortKey.fragment, SortKey.literals, literals_spaced, List.flatMap_append]
  cases k.direction <;> cases k.nulls <;> simp

@[simp] theorem Join.literals_fragment (j : Join) : j.fragment.literals = j.literals := by
  simp [Join.fragment, Join.literals]

/-- The expressions that are grouped by. -/
def Projection.grouped? : Projection → Option Expr
  | .all => none
  | .allOf _ => none
  | .expr e _ => some e

/-- The fragments of the groups are those of the expressions that are grouped by. -/
theorem Projection.groupFragments_eq_map (groups : List Projection) :
    groups.filterMap groupFragment? = (groups.filterMap grouped?).map Expr.fragment := by
  rw [List.map_filterMap]
  refine List.filterMap_congr fun p _ => ?_
  cases p <;> rfl

/-- The groups that are written hold the literals of all groups: a skipped wildcard has none. -/
theorem Projection.literals_groupFragments (groups : List Projection) :
    (groups.filterMap groupFragment?).flatMap Fragment.literals =
      groups.flatMap Projection.literals := by
  induction groups with
  | nil => rfl
  | cons p groups ih =>
    cases p <;> simp [List.filterMap_cons, groupFragment?, Projection.literals, ih]

namespace Select

theorem literals_listClause (words : List Keyword) (entries : List Fragment) :
    (listClause words entries).flatMap Fragment.literals = entries.flatMap Fragment.literals := by
  cases entries <;> simp [listClause]

theorem literals_countClause (word : Keyword) (n : Option UInt64) :
    (countClause word n).flatMap Fragment.literals = [] := by
  cases n <;> simp [countClause]

/-- The literals of a statement's fragment are those of its clauses in order. -/
@[simp] theorem literals_fragment (s : Select) : s.fragment.literals = s.literals := by
  have hdistinct : (distinctClause s.distinct).flatMap Fragment.literals = [] := by
    rcases s.distinct with _ | _ | ⟨c, cs⟩ <;> simp [distinctClause, List.flatMap_map]
  have hprojections : (projectionClause s.projections).flatMap Fragment.literals =
      s.projections.flatMap Projection.literals := by
    rcases s.projections with _ | ⟨p, ps⟩ <;> simp [projectionClause, List.flatMap_map]
  have hcondition : (conditionClause s.condition).flatMap Fragment.literals =
      s.condition.elim [] Condition.literals := by
    cases s.condition <;> simp [conditionClause]
  simp only [fragment, clauses, literals_spaced, List.flatMap_append, literals_listClause,
    literals_countClause, hdistinct, hprojections, hcondition, Projection.literals_groupFragments,
    List.flatMap_map, TableRef.literals_fragment, Join.literals_fragment,
    SortKey.literals_fragment, literals]
  simp

end Select

end SqlSelect
