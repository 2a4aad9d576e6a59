import SqlSelect.Proofs.Catalogs.Rows
import SqlSelect.Proofs.Values.Equality

/-!
# Rows as finite maps

However a row was put together, it has each column once, where the column came first, with the value
that came last. Rows are equal when they have the same columns with equal values, in any order. This
is an equivalence, and it is all that reading a row looks at: equal rows read the same, with the
same faults, and so do lists of equal rows.
-/

namespace SqlSelect

open OrderedMap

namespace Row

/-- The columns of a row, in order. -/
def names (r : Row) : List String := r.toList.map Prod.fst

/-- A row with pairs of column and value inserted one after the other. -/
def insertAll (r : Row) (pairs : List (String × Value)) : Row :=
  pairs.foldl (fun r pair => r.insert pair.1 pair.2) r

/-! ## Insertion -/

/-- Collecting pairs is inserting them, so inserting more is collecting more. -/
theorem insertAll_ofList (first more : List (String × Value)) :
    (ofList first).insertAll more = ofList (first ++ more) := by
  induction more generalizing first with
  | nil => rw [List.append_nil]; rfl
  | cons pair more ih =>
    have hinsert : (ofList first).insert pair.1 pair.2 = ofList (first ++ [pair]) :=
      congrArg Row.mk (ofList_append_singleton first pair).symm
    rw [insertAll, List.foldl_cons, ← insertAll, hinsert, ih, ← List.append_cons]

theorem nodup_names (r : Row) : r.names.Nodup := r.cells.nodup_keys

theorem names_ofList (pairs : List (String × Value)) :
    (ofList pairs).names = (pairs.map Prod.fst).eraseDups :=
  keys_ofList pairs

/-! ## Equality -/

section Equality

variable {r s : Row}

theorem beq_iff_get? : (r == s) = true ↔ ∀ column, (r.get? column == s.get? column) = true :=
  OrderedMap.beq_iff_get? (m := r.cells) (n := s.cells)

instance : EquivBEq Row where
  rfl := beq_iff_get?.mpr fun _ => BEq.rfl
  symm h := beq_iff_get?.mpr fun column => BEq.symm (beq_iff_get?.mp h column)
  trans h h' := beq_iff_get?.mpr fun column =>
    BEq.trans (beq_iff_get?.mp h column) (beq_iff_get?.mp h' column)

/-- Rows are equal when they have the same columns with equal values, in any order. -/
theorem beq_iff_names :
    (r == s) = true ↔ (∀ column, column ∈ r.names ↔ column ∈ s.names) ∧
      ∀ column v w, r.get? column = some v → s.get? column = some w → (v == w) = true := by
  have hname : ∀ (r : Row) column, column ∈ r.names ↔ (r.get? column).isSome :=
    fun r column => (r.cells.isSome_get?_iff column).symm
  simp only [beq_iff_get?, hname, ← forall_and]
  refine forall_congr' fun column => ?_
  cases r.get? column <;> cases s.get? column <;> simp

/-- What does not look at the bits of floats reads the same in equal rows. -/
theorem read_eq_of_beq {α : Type} {as? : Value → Option α} (has : ∀ v, as? v.normal = as? v)
    (h : (r == s) = true) (expected column : String) :
    r.read expected as? column = s.read expected as? column := by
  have hcolumn := beq_iff_get?.mp h column
  rw [read_eq, read_eq]
  cases hr : r.get? column with
  | none => cases hs : s.get? column <;> simp_all
  | some v =>
    cases hs : s.get? column with
    | none => simp_all
    | some w =>
      rw [hr, hs, Option.some_beq_some, Value.beq_iff_normal] at hcolumn
      simp only [← has v, ← has w, ← v.kind_normal, ← w.kind_normal, hcolumn]

theorem oid_eq_of_beq (h : (r == s) = true) (column : String) : r.oid column = s.oid column :=
  read_eq_of_beq (fun v => by cases v <;> rfl) h "u32" column

theorem text_eq_of_beq (h : (r == s) = true) (column : String) : r.text column = s.text column :=
  read_eq_of_beq (fun v => by cases v <;> rfl) h "text" column

end Equality

end Row

/-! ## Catalogs of equal rows -/

theorem Catalog.ofRows_eq_of_beq {rows rows' : List Row}
    (h : List.Forall₂ (fun r s => (r == s) = true) rows rows') : ofRows rows = ofRows rows' := by
  suffices hentries : entriesOfRows rows = entriesOfRows rows' by rw [ofRows, ofRows, hentries]
  induction h with
  | nil => rfl
  | cons hrow _ ih =>
    rw [entriesOfRows, entriesOfRows, ih, entryOfRow, entryOfRow, Row.oid_eq_of_beq hrow,
      Row.text_eq_of_beq hrow]

namespace Row

/-- A row holds what was put into it last under each column, in the order in which the columns first
came, whether the pairs were collected or inserted one by one. Equality of rows is the equality of
finite maps: it is an equivalence, it compares the values under the same columns, and no column and
no catalog is read differently from equal rows. -/
theorem finite_map :
    (∀ first more : List (String × Value),
      ((ofList first).insertAll more).names.Nodup ∧
      ((ofList first).insertAll more).names = ((first ++ more).map Prod.fst).eraseDups ∧
      (∀ column, ((ofList first).insertAll more).get? column = lastValue? (first ++ more) column) ∧
      ((ofList first).insertAll more).toList =
        ((first ++ more).map Prod.fst).eraseDups.filterMap
          (fun column => (lastValue? (first ++ more) column).map (column, ·)) ∧
      ((ofList first).insertAll more).size = ((first ++ more).map Prod.fst).toFinset.card) ∧
    ofList [] = empty ∧
    (∀ pairs, ofList pairs = empty.insertAll pairs) ∧
    (∀ r : Row, (r == r) = true) ∧
    (∀ r s : Row, (r == s) = true → (s == r) = true) ∧
    (∀ r s t : Row, (r == s) = true → (s == t) = true → (r == t) = true) ∧
    (∀ r s : Row, (r == s) = true ↔ (∀ column, column ∈ r.names ↔ column ∈ s.names) ∧
      ∀ column v w, r.get? column = some v → s.get? column = some w → (v == w) = true) ∧
    (∀ r s : Row, (r == s) = true → ∀ column, r.oid column = s.oid column ∧
      r.text column = s.text column) ∧
    (∀ rows rows' : List Row, List.Forall₂ (fun r s => (r == s) = true) rows rows' →
      Catalog.ofRows rows = Catalog.ofRows rows') := by
  refine ⟨fun first more => ?_, rfl, fun pairs => (insertAll_ofList [] pairs).symm,
    fun _ => BEq.rfl, fun _ _ => BEq.symm, fun _ _ _ => BEq.trans, fun _ _ => beq_iff_names,
    fun _ _ h column => ⟨oid_eq_of_beq h column, text_eq_of_beq h column⟩,
    fun _ _ => Catalog.ofRows_eq_of_beq⟩
  rw [insertAll_ofList]
  exact ⟨nodup_names _, names_ofList _, get?_ofList _, entries_ofList _, size_ofList _⟩

/-- Zeros of either sign in columns of either order: the rows are equal, read the same, and give the
same catalog. -/
theorem finite_map_zeros :
    let r := ofList [("oid", .int 7), ("relname", .text "t"), ("x", .float (.zero false))]
    let s := ofList [("x", .float (.zero true)), ("relname", .text "t"), ("oid", .int 7)]
    r.names ≠ s.names ∧ (r == s) = true ∧
      (r.oid "x" = s.oid "x" ∧ r.text "x" = s.text "x") ∧
      Catalog.ofRows [r] = Catalog.ofRows [s] := by
  intro r s
  obtain ⟨-, -, -, -, -, -, -, hread, hrows⟩ := finite_map
  have h : (r == s) = true := by decide +kernel
  exact ⟨by decide +kernel, h, hread r s h "x", hrows [r] [s] (.cons h .nil)⟩

end Row

end SqlSelect
