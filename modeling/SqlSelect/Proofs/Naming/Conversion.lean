import SqlSelect.Proofs.Text.Digits
import SqlSelect.Sql.Spelling
import Mathlib.Data.List.TakeWhile

/-!
# Names from strings and back

A string is split at its first dot, and this is all that splitting says: the parts join to the
string, and the part in front has no dot (`splitQualifier_eq_iff`). So whatever a string is taken
for, a wildcard included, it is written as that string again where names are written as they are. A
column or a table, on the other hand, is the one that its own text names exactly if the part that is
written first has no dot.
-/

namespace SqlSelect

/-! ## Splitting -/

/-- The part of a name that is written first: the qualifier if there is one. -/
def firstPart (qualifier : Option String) (name : String) : String := qualifier.getD name

theorem dot_notMem_firstPart_splitQualifier (s : String) :
    '.' ∉ (firstPart (splitQualifier s).1 (splitQualifier s).2).toList := by
  intro hdot
  rw [splitQualifier] at hdot
  split at hdot
  · rename_i hdrop
    have hall := List.dropWhile_eq_nil_iff.mp hdrop '.' hdot
    cases hall
  · rw [firstPart, Option.getD_some, String.toList_ofList] at hdot
    have hne := List.mem_takeWhile_imp hdot
    cases hne

theorem splitQualifier_of_notMem {s : String} (h : '.' ∉ s.toList) :
    splitQualifier s = (none, s) := by
  have hrun : ∀ c ∈ s.toList, (c != '.') = true := fun c hc =>
    bne_iff_ne.mpr fun heq => h (heq ▸ hc)
  have hdrop : (s.toList ++ []).dropWhile (· != '.') = [] := Text.dropWhile_append_stop hrun nofun
  rw [List.append_nil] at hdrop
  rw [splitQualifier, hdrop]

theorem splitQualifier_joinQualifier_some {qualifier : String} (h : '.' ∉ qualifier.toList)
    (name : String) :
    splitQualifier (joinQualifier (some qualifier) name) = (some qualifier, name) := by
  have hrun : ∀ c ∈ qualifier.toList, (c != '.') = true := fun c hc =>
    bne_iff_ne.mpr fun heq => h (heq ▸ hc)
  have hstop : ∀ c ∈ ('.' :: name.toList).head?, (c != '.') = false := by
    rintro c ⟨⟩
    rfl
  have htext : (joinQualifier (some qualifier) name).toList = qualifier.toList ++ '.' :: name.toList
    := by
    rw [joinQualifier, String.toList_append, String.toList_append, List.append_assoc]
    rfl
  rw [splitQualifier, htext, Text.dropWhile_append_stop hrun hstop,
    Text.takeWhile_append_stop hrun hstop]
  dsimp only
  rw [String.ofList_toList, String.ofList_toList]

/-- A string is split into the parts that join to it and of which the first has no dot. -/
theorem splitQualifier_eq_iff (s : String) (qualifier : Option String) (name : String) :
    splitQualifier s = (qualifier, name) ↔
      joinQualifier qualifier name = s ∧ '.' ∉ (firstPart qualifier name).toList := by
  constructor
  · intro h
    have hjoin := join_splitQualifier s
    have hdot := dot_notMem_firstPart_splitQualifier s
    rw [h] at hjoin hdot
    exact ⟨hjoin, hdot⟩
  · rintro ⟨rfl, hdot⟩
    cases qualifier with
    | none => exact splitQualifier_of_notMem hdot
    | some qualifier => exact splitQualifier_joinQualifier_some hdot name

/-- Either there is a qualifier and it has no dot, or there is none and the name has no dot. -/
theorem dot_notMem_firstPart_iff (qualifier : Option String) (name : String) :
    '.' ∉ (firstPart qualifier name).toList ↔
      (∃ q, qualifier = some q ∧ '.' ∉ q.toList) ∨ (qualifier = none ∧ '.' ∉ name.toList) := by
  cases qualifier <;> simp [firstPart]

theorem Column.ofString_eq_iff (s : String) (c : Column) :
    Column.ofString s = c ↔ splitQualifier s = (c.table, c.name) := by
  rw [ofString, Prod.ext_iff, ← Column.mk.injEq]

theorem TableRef.ofString_eq_iff (s : String) (t : TableRef) :
    TableRef.ofString s = t ↔ t.label = none ∧ splitQualifier s = (t.schema, t.name) := by
  rw [ofString, Prod.ext_iff, eq_comm (a := t.label), and_comm, and_assoc, ← TableRef.mk.injEq]

/-! ## Wildcards -/

/-- The strings that name a wildcard. -/
def IsWildcard (s : String) : Prop := s = "*" ∨ ∃ table, s = table ++ ".*"

namespace Projection

theorem ofString_star : ofString "*" = .all := rfl

theorem ofString_allOf (table : String) : ofString (table ++ ".*") = .allOf table := by
  have hreverse : (table ++ ".*").toList.reverse = '*' :: '.' :: table.toList.reverse := by
    rw [String.toList_append, List.reverse_append]
    rfl
  rw [ofString, hreverse]
  show allOf (String.ofList table.toList.reverse.reverse) = _
  rw [List.reverse_reverse, String.ofList_toList]

theorem ofString_of_not_isWildcard {s : String} (h : ¬ IsWildcard s) :
    ofString s = ofColumnName s := by
  rw [ofString]
  split
  · rename_i hstar
    exact absurd (.inl (String.toList_inj.mp (List.reverse_injective hstar))) h
  · rename_i table hstar
    refine absurd (.inr ⟨String.ofList table.reverse, String.toList_inj.mp ?_⟩) h
    rw [← List.reverse_reverse s.toList, hstar, String.toList_append, String.toList_ofList,
      List.reverse_cons, List.reverse_cons, List.append_assoc]
    rfl
  · rfl

end Projection

/-! ## Writing names as they are -/

section Writing

variable (binds : List Value)

theorem write_qualifiedName (qualifier : Option String) (name : String) :
    (qualifiedName qualifier name).write .never binds = ⟨joinQualifier qualifier name, binds⟩ := by
  cases qualifier with
  | none =>
    show Statement.mk (String.ofList (name.toList ++ [])) (binds ++ []) = _
    rw [List.append_nil, List.append_nil, String.ofList_toList]
    rfl
  | some qualifier =>
    show Statement.mk (String.ofList (qualifier.toList ++ ('.' :: (name.toList ++ []))))
      (binds ++ []) = _
    rw [List.append_nil, List.append_nil, List.append_cons, String.ofList_append,
      String.ofList_append, String.ofList_toList, String.ofList_toList]
    rfl

theorem Column.write_ofString (s : String) :
    (Column.ofString s).fragment.write .never binds = ⟨s, binds⟩ := by
  rw [fragment, write_qualifiedName, ofString, join_splitQualifier]

theorem TableRef.write_ofString (s : String) :
    (TableRef.ofString s).fragment.write .never binds = ⟨s, binds⟩ := by
  rw [fragment, ofString, aliased, write_qualifiedName, join_splitQualifier]

theorem Expr.write_ofString (s : String) :
    (Expr.ofString s).fragment.write .never binds = ⟨s, binds⟩ := by
  rw [ofString, fragment, Column.write_ofString]

theorem Projection.write_ofColumnName (s : String) :
    (Projection.ofColumnName s).fragment.write .never binds = ⟨s, binds⟩ :=
  Expr.write_ofString binds s

/-- A wildcard is written with its table, a column as it is split. -/
theorem Projection.write_ofString (s : String) :
    (Projection.ofString s).fragment.write .never binds = ⟨s, binds⟩ := by
  by_cases h : IsWildcard s
  · rcases h with rfl | ⟨table, rfl⟩
    · rw [ofString_star]
      show Statement.mk "*" (binds ++ []) = _
      rw [List.append_nil]
    · rw [ofString_allOf]
      show Statement.mk (String.ofList (table.toList ++ ['.', '*'])) (binds ++ []) = _
      rw [List.append_nil, String.ofList_append, String.ofList_toList]
  · rw [ofString_of_not_isWildcard h]
    exact write_ofColumnName binds s

theorem SortKey.write_ofString (s : String) :
    (SortKey.ofString s).fragment.write .never binds = ⟨s, binds⟩ :=
  Expr.write_ofString binds s

theorem Column.ofString_write_iff (c : Column) :
    Column.ofString (c.fragment.write .never binds).text = c ↔
      '.' ∉ (firstPart c.table c.name).toList := by
  rw [ofString_eq_iff, fragment, write_qualifiedName, splitQualifier_eq_iff]
  exact and_iff_right rfl

theorem TableRef.ofString_write_iff (t : TableRef) :
    TableRef.ofString (t.fragment.write .never binds).text = t ↔
      t.label = none ∧ '.' ∉ (firstPart t.schema t.name).toList := by
  rw [ofString_eq_iff, splitQualifier_eq_iff]
  refine and_congr_right fun hlabel => ?_
  rw [fragment, hlabel, aliased, write_qualifiedName]
  exact and_iff_right rfl

end Writing

/-- Whatever is read from a string, a column, a table, an expression, a projection or a sort key, is
written as this string when names are written as they are, and binds nothing. A column is read back
from its text exactly if it has a table without a dot, or no table and a name without a dot. A table
is read back exactly if it has no alias and the same holds of its schema and its name. -/
theorem ofString_write_never :
    (∀ (s : String) (binds : List Value),
      (Column.ofString s).fragment.write .never binds = ⟨s, binds⟩ ∧
      (TableRef.ofString s).fragment.write .never binds = ⟨s, binds⟩ ∧
      (Expr.ofString s).fragment.write .never binds = ⟨s, binds⟩ ∧
      (Projection.ofString s).fragment.write .never binds = ⟨s, binds⟩ ∧
      (Projection.ofColumnName s).fragment.write .never binds = ⟨s, binds⟩ ∧
      (SortKey.ofString s).fragment.write .never binds = ⟨s, binds⟩) ∧
    (∀ (c : Column) (binds : List Value),
      Column.ofString (c.fragment.write .never binds).text = c ↔
        (∃ table, c.table = some table ∧ '.' ∉ table.toList) ∨
          (c.table = none ∧ '.' ∉ c.name.toList)) ∧
    (∀ (t : TableRef) (binds : List Value),
      TableRef.ofString (t.fragment.write .never binds).text = t ↔
        t.label = none ∧
          ((∃ schema, t.schema = some schema ∧ '.' ∉ schema.toList) ∨
            (t.schema = none ∧ '.' ∉ t.name.toList))) := by
  refine ⟨fun s binds => ⟨Column.write_ofString binds s, TableRef.write_ofString binds s,
    Expr.write_ofString binds s, Projection.write_ofString binds s,
    Projection.write_ofColumnName binds s, SortKey.write_ofString binds s⟩, ?_, ?_⟩
  · intro c binds
    rw [Column.ofString_write_iff, dot_notMem_firstPart_iff]
  · intro t binds
    rw [TableRef.ofString_write_iff, dot_notMem_firstPart_iff]

/-- Dots behind the first and stars are characters of names. -/
example : Column.ofString ".a.*" = ⟨some "", "a.*"⟩ ∧ Projection.ofString "*.a.*" = .allOf "*.a" :=
  ⟨by decide +kernel, rfl⟩

end SqlSelect
