import SqlSelect.Proofs.Binding.Literals

/-!
# Changing the leaves of a query

The leaves of a query are its names and its literals; the names of functions are not among them. A
relabeling changes the leaves one by one and keeps all else. The fragment of a relabeled query is
the fragment of the query, relabeled piece by piece (`Select.fragment_relabel`): nothing but the
leaf itself is written of a leaf, and no part of a query is written otherwise because of one.
-/

namespace SqlSelect

open Fragment

/-- A change of names and of literals. -/
structure Relabeling where
  name : String → String := id
  literal : Value → Value := id

variable (r : Relabeling)

/-! ## Relabeling a query -/

/-- A column with changed names. -/
def Column.relabel (c : Column) : Column := ⟨c.table.map r.name, r.name c.name⟩

/-- A table with changed names. -/
def TableRef.relabel (t : TableRef) : TableRef :=
  ⟨t.schema.map r.name, r.name t.name, t.label.map r.name⟩

namespace Expr

mutual

/-- An expression with changed leaves. -/
def relabel : Expr → Expr
  | .column c => .column (c.relabel r)
  | .literal v => .literal (r.literal v)
  | .call function args => .call function (relabelAll args)
  | .binary left op right => .binary left.relabel op right.relabel
  | .null => .null
  | .star => .star

/-- Expressions with changed leaves. -/
def relabelAll : List Expr → List Expr
  | [] => []
  | x :: xs => x.relabel :: relabelAll xs

end

theorem relabelAll_eq_map (xs : List Expr) : relabelAll r xs = xs.map (relabel r) := by
  induction xs with
  | nil => rfl
  | cons x xs ih => rw [relabelAll, ih, List.map_cons]

end Expr

namespace Condition

mutual

/-- A condition with changed leaves. -/
def relabel : Condition → Condition
  | .all members => .all (relabelAll members)
  | .any members => .any (relabelAll members)
  | .not c => .not c.relabel
  | .compare left op right => .compare (left.relabel r) op (right.relabel r)
  | .isNull e negated => .isNull (e.relabel r) negated
  | .inList e list negated => .inList (e.relabel r) (list.map (Expr.relabel r)) negated
  | .like e pattern negated ignoreCase =>
    .like (e.relabel r) (pattern.relabel r) negated ignoreCase

/-- Conditions with changed leaves. -/
def relabelAll : List Condition → List Condition
  | [] => []
  | c :: cs => c.relabel :: relabelAll cs

end

theorem relabelAll_eq_map (cs : List Condition) : relabelAll r cs = cs.map (relabel r) := by
  induction cs with
  | nil => rfl
  | cons c cs ih => rw [relabelAll, ih, List.map_cons]

theorem isGroup_relabel (c : Condition) : (c.relabel r).isGroup = c.isGroup := by
  cases c <;> rfl

end Condition

/-- A projection with changed leaves. -/
def Projection.relabel : Projection → Projection
  | .all => .all
  | .allOf table => .allOf (r.name table)
  | .expr e label => .expr (e.relabel r) (label.map r.name)

/-- A sort key with changed leaves. -/
def SortKey.relabel (k : SortKey) : SortKey :=
  { k with expression := k.expression.relabel r }

/-- A join with changed leaves. -/
def Join.relabel (j : Join) : Join :=
  ⟨j.kind, j.table.relabel r, j.condition.relabel r⟩

/-- A statement with changed leaves. -/
def Select.relabel (s : Select) : Select where
  distinct := s.distinct.map (List.map (Column.relabel r))
  projections := s.projections.map (Projection.relabel r)
  tables := s.tables.map (TableRef.relabel r)
  joins := s.joins.map (Join.relabel r)
  condition := s.condition.map (Condition.relabel r)
  groups := s.groups.map (Projection.relabel r)
  sorts := s.sorts.map (SortKey.relabel r)
  limit := s.limit
  offset := s.offset

/-! ## Relabeling a fragment -/

/-- A piece with its leaf changed. Text that is written as it is stays. -/
def Piece.relabel : Piece → Piece
  | .name word => .name (r.name word)
  | .literal v => .literal (r.literal v)
  | p => p

/-- A fragment with changed leaves. -/
def Fragment.relabel (f : Fragment) : Fragment := f.map (Piece.relabel r)

namespace Fragment

theorem relabel_append (f g : Fragment) :
    relabel r (f ++ g) = f.relabel r ++ g.relabel r :=
  List.map_append

/-- A separator without leaves stays between the joined fragments. -/
theorem relabel_joined {separator : Fragment} (h : separator.relabel r = separator)
    (fs : List Fragment) :
    (joined separator fs).relabel r = joined separator (fs.map (relabel r)) := by
  induction fs with
  | nil => rfl
  | cons f fs ih =>
    cases fs with
    | nil => rfl
    | cons g fs =>
      rw [joined_cons_cons, relabel_append, relabel_append, ih, h]
      rfl

theorem relabel_commaSeparated (fs : List Fragment) :
    (commaSeparated fs).relabel r = commaSeparated (fs.map (relabel r)) :=
  relabel_joined r rfl fs

theorem relabel_spaced (fs : List Fragment) :
    (spaced fs).relabel r = spaced (fs.map (relabel r)) :=
  relabel_joined r rfl fs

theorem relabel_parenthesised (f : Fragment) :
    (parenthesised f).relabel r = parenthesised (f.relabel r) := by
  rw [parenthesised, relabel, List.map_cons, List.map_append]
  rfl

/-- Where relabeling and writing may change places for each item, they may for a list of items. -/
theorem map_fragment_relabel {α : Type} {fragment : α → Fragment} {change : α → α} {xs : List α}
    (h : ∀ x ∈ xs, fragment (change x) = (fragment x).relabel r) :
    (xs.map change).map fragment = (xs.map fragment).map (relabel r) := by
  rw [List.map_map, List.map_map]
  exact List.map_congr_left h

end Fragment

/-! ## Relabeling and writing change places -/

theorem relabel_keywords (ks : List Keyword) : (keywords ks).relabel r = keywords ks := by
  rw [keywords, relabel_spaced, List.map_map]
  rfl

theorem relabel_qualifiedName (qualifier : Option String) (name : String) :
    (qualifiedName qualifier name).relabel r =
      qualifiedName (qualifier.map r.name) (r.name name) := by
  cases qualifier <;> rfl

theorem relabel_aliased (f : Fragment) (label : Option String) :
    (aliased f label).relabel r = aliased (f.relabel r) (label.map r.name) := by
  cases label with
  | none => rfl
  | some label => exact relabel_append r f _

theorem Column.fragment_relabel (c : Column) : (c.relabel r).fragment = c.fragment.relabel r :=
  (relabel_qualifiedName r c.table c.name).symm

theorem TableRef.fragment_relabel (t : TableRef) :
    (t.relabel r).fragment = t.fragment.relabel r := by
  rw [fragment, fragment, relabel_aliased, relabel_qualifiedName]
  rfl

theorem Expr.fragment_relabel (e : Expr) : (e.relabel r).fragment = e.fragment.relabel r := by
  induction e with
  | column c => exact c.fragment_relabel r
  | literal v => rfl
  | call function args ih =>
    have hargs : fragments (relabelAll r args) = (fragments args).map (Fragment.relabel r) := by
      rw [relabelAll_eq_map, fragments_eq_map, fragments_eq_map]
      exact map_fragment_relabel r ih
    rw [Expr.relabel, Expr.fragment, Expr.fragment, hargs, ← relabel_commaSeparated,
      ← relabel_parenthesised]
    rfl
  | binary left op right ihl ihr =>
    rw [Expr.relabel, Expr.fragment, Expr.fragment, ihl, ihr, relabel_parenthesised,
      relabel_spaced]
    rfl
  | null => rfl
  | star => rfl

namespace Condition

theorem memberFragments_relabel {members : List Condition}
    (ih : ∀ c ∈ members, (c.relabel r).fragment = c.fragment.relabel r) :
    memberFragments (relabelAll r members) =
      (memberFragments members).map (Fragment.relabel r) := by
  rw [relabelAll_eq_map, memberFragments_eq_map, memberFragments_eq_map]
  refine map_fragment_relabel r fun c hc => ?_
  rw [memberFragment, memberFragment, isGroup_relabel, ih c hc]
  split
  · exact (relabel_parenthesised r c.fragment).symm
  · rfl

theorem fragment_relabel (c : Condition) : (c.relabel r).fragment = c.fragment.relabel r := by
  induction c with
  | all members ih =>
    cases members with
    | nil => rfl
    | cons c cs =>
      have hmembers := memberFragments_relabel r ih
      exact (congrArg _ hmembers).trans (relabel_joined r rfl _).symm
  | any members ih =>
    cases members with
    | nil => rfl
    | cons c cs =>
      have hmembers := memberFragments_relabel r ih
      exact (congrArg _ hmembers).trans (relabel_joined r rfl _).symm
  | not c ih =>
    rw [relabel, fragment, fragment, ih, ← relabel_parenthesised]
    rfl
  | compare left op right =>
    rw [relabel, fragment, fragment, left.fragment_relabel, right.fragment_relabel,
      relabel_spaced]
    rfl
  | isNull e negated =>
    rw [relabel, fragment, fragment, e.fragment_relabel, relabel_spaced, List.map_cons,
      List.map_cons, relabel_keywords]
    rfl
  | inList e list negated =>
    cases list with
    | nil => rfl
    | cons x xs =>
      have hlist : ((x :: xs).map (Expr.relabel r)).map Expr.fragment =
          ((x :: xs).map Expr.fragment).map (Fragment.relabel r) :=
        map_fragment_relabel r fun y _ => y.fragment_relabel r
      show spaced [(e.relabel r).fragment, _, parenthesised (commaSeparated _)] = _
      rw [fragment, e.fragment_relabel, hlist, relabel_spaced, ← relabel_commaSeparated,
        ← relabel_parenthesised]
      · simp only [List.map_cons, List.map_nil, relabel_keywords]
      · exact List.cons_ne_nil x xs
  | like e pattern negated ignoreCase =>
    rw [relabel, fragment, fragment, e.fragment_relabel, pattern.fragment_relabel,
      relabel_spaced, List.map_cons, List.map_cons, relabel_keywords]
    rfl

end Condition

theorem Projection.fragment_relabel (p : Projection) :
    (p.relabel r).fragment = p.fragment.relabel r := by
  cases p with
  | all => rfl
  | allOf table => rfl
  | expr e label =>
    rw [relabel, fragment, fragment, relabel_aliased, e.fragment_relabel]

theorem Projection.groupFragment?_relabel (p : Projection) :
    (p.relabel r).groupFragment? = p.groupFragment?.map (Fragment.relabel r) := by
  cases p with
  | all => rfl
  | allOf table => rfl
  | expr e label => exact congrArg some (e.fragment_relabel r)

theorem SortKey.fragment_relabel (k : SortKey) :
    (k.relabel r).fragment = k.fragment.relabel r := by
  obtain ⟨e, direction, nulls⟩ := k
  rw [fragment, fragment, relabel_spaced]
  show spaced ([(e.relabel r).fragment] ++ _ ++ _) = _
  rw [e.fragment_relabel]
  cases direction <;> cases nulls <;> rfl

theorem Join.fragment_relabel (j : Join) : (j.relabel r).fragment = j.fragment.relabel r := by
  rw [fragment, fragment, relabel_spaced]
  show spaced [_, (j.table.relabel r).fragment, _, (j.condition.relabel r).fragment] = _
  rw [j.table.fragment_relabel, j.condition.fragment_relabel, List.map_cons, relabel_keywords]
  rfl

namespace Select

theorem listClause_relabel (words : List Keyword) (entries : List Fragment) :
    listClause words (entries.map (Fragment.relabel r)) =
      (listClause words entries).map (Fragment.relabel r) := by
  cases entries with
  | nil => rfl
  | cons e es =>
    show [keywords words, commaSeparated ((e :: es).map (Fragment.relabel r))] = _
    rw [← relabel_commaSeparated, ← relabel_keywords r words]
    rfl

theorem countClause_relabel (word : Keyword) (n : Option UInt64) :
    (countClause word n).map (Fragment.relabel r) = countClause word n := by
  cases n <;> rfl

theorem distinctClause_relabel (distinct : Option (List Column)) :
    distinctClause (distinct.map (List.map (Column.relabel r))) =
      (distinctClause distinct).map (Fragment.relabel r) := by
  rcases distinct with _ | _ | ⟨c, cs⟩
  · rfl
  · rfl
  · have hcolumns : ((c :: cs).map (Column.relabel r)).map Column.fragment =
        ((c :: cs).map Column.fragment).map (Fragment.relabel r) :=
      map_fragment_relabel r fun d _ => d.fragment_relabel r
    show [.keyword .distinct :: parenthesised (commaSeparated _)] = _
    rw [hcolumns, ← relabel_commaSeparated, ← relabel_parenthesised]
    rfl

theorem projectionClause_relabel (projections : List Projection) :
    projectionClause (projections.map (Projection.relabel r)) =
      (projectionClause projections).map (Fragment.relabel r) := by
  cases projections with
  | nil => rfl
  | cons p ps =>
    have hprojections : ((p :: ps).map (Projection.relabel r)).map Projection.fragment =
        ((p :: ps).map Projection.fragment).map (Fragment.relabel r) :=
      map_fragment_relabel r fun q _ => q.fragment_relabel r
    show [commaSeparated (((p :: ps).map (Projection.relabel r)).map Projection.fragment)] = _
    rw [hprojections, ← relabel_commaSeparated]
    rfl

theorem conditionClause_relabel (condition : Option Condition) :
    conditionClause (condition.map (Condition.relabel r)) =
      (conditionClause condition).map (Fragment.relabel r) := by
  cases condition with
  | none => rfl
  | some c =>
    show [[.keyword .where], (c.relabel r).fragment] = _
    rw [c.fragment_relabel]
    rfl

theorem groupFragments_relabel (groups : List Projection) :
    (groups.map (Projection.relabel r)).filterMap Projection.groupFragment? =
      (groups.filterMap Projection.groupFragment?).map (Fragment.relabel r) := by
  rw [List.filterMap_map, List.map_filterMap]
  exact List.filterMap_congr fun p _ => p.groupFragment?_relabel r

/-- The fragment of a relabeled statement is its fragment, relabeled. -/
theorem fragment_relabel (s : Select) : (s.relabel r).fragment = s.fragment.relabel r := by
  have htables : (s.tables.map (TableRef.relabel r)).map TableRef.fragment =
      (s.tables.map TableRef.fragment).map (Fragment.relabel r) :=
    map_fragment_relabel r fun t _ => t.fragment_relabel r
  have hjoins : (s.joins.map (Join.relabel r)).map Join.fragment =
      (s.joins.map Join.fragment).map (Fragment.relabel r) :=
    map_fragment_relabel r fun j _ => j.fragment_relabel r
  have hsorts : (s.sorts.map (SortKey.relabel r)).map SortKey.fragment =
      (s.sorts.map SortKey.fragment).map (Fragment.relabel r) :=
    map_fragment_relabel r fun k _ => k.fragment_relabel r
  have hclauses : (s.relabel r).clauses = s.clauses.map (Fragment.relabel r) := by
    simp only [clauses, relabel, List.map_append, htables, hjoins, hsorts,
      groupFragments_relabel, distinctClause_relabel, projectionClause_relabel,
      conditionClause_relabel, listClause_relabel, countClause_relabel]
    rfl
  rw [fragment, fragment, hclauses, relabel_spaced]

end Select

end SqlSelect
