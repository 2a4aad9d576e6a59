import SqlSelect.Proofs.Catalogs.Lookup

/-!
# Equal catalogs

Catalogs are equal when the same identifiers have the same names, in any order. The look-up by
identifier cannot tell them apart. The look-up by name can: it finds the first table of that name,
and any table of the name is the first one of some equal catalog (`exists_beq_oid?`). So equal
catalogs agree on a name exactly where at most one table has it.
-/

namespace SqlSelect.Catalog

open OrderedMap

/-- At most one table has the name. -/
def Unambiguous (c : Catalog) (name : String) : Prop :=
  ∀ oid oid', c.name? oid = some name → c.name? oid' = some name → oid = oid'

variable {a b : Catalog}

theorem beq_iff_name? : (a == b) = true ↔ ∀ oid, a.name? oid = b.name? oid := by
  simp only [name?, ← beq_iff_eq (α := Option String)]
  exact beq_iff_get? (m := a.names) (n := b.names)

theorem size_eq_of_beq (h : (a == b) = true) : a.size = b.size :=
  OrderedMap.size_eq_of_beq (m := a.names) (n := b.names) h

theorem isEmpty_eq_of_beq (h : (a == b) = true) : a.isEmpty = b.isEmpty := by
  have hsize : ∀ c : Catalog, c.isEmpty = true ↔ c.size = 0 := fun c =>
    List.isEmpty_iff_length_eq_zero
  rw [Bool.eq_iff_iff, hsize, hsize, size_eq_of_beq h]

theorem isSome_oid?_iff (c : Catalog) (name : String) :
    (c.oid? name).isSome ↔ ∃ oid, c.name? oid = some name := by
  rw [Option.isSome_iff_exists]
  constructor
  · rintro ⟨oid, h⟩
    exact ⟨oid, name?_of_oid? h⟩
  · rintro ⟨oid, h⟩
    obtain ⟨first, hfirst, -⟩ := exists_oid?_of_name? h
    exact ⟨first, hfirst⟩

theorem isSome_oid?_eq_of_beq (h : (a == b) = true) (name : String) :
    (a.oid? name).isSome = (b.oid? name).isSome := by
  rw [Bool.eq_iff_iff, isSome_oid?_iff, isSome_oid?_iff]
  simp only [beq_iff_name?.mp h]

/-- Any table of a name is the first one once its entry is moved to the front. -/
theorem exists_beq_oid? {oid : UInt32} {name : String} (h : a.name? oid = some name) :
    ∃ b : Catalog, (a == b) = true ∧ b.oid? name = some oid := by
  have hperm := List.perm_cons_erase ((a.name?_eq_some_iff oid name).mp h)
  refine ⟨⟨(oid, name) :: a.toList.erase (oid, name),
    (hperm.map Prod.fst).nodup_iff.mp a.names.distinct⟩, ?_, ?_⟩
  · exact beq_iff_name?.mpr fun other => get?_eq_of_perm hperm other
  · exact congrArg (Option.map Prod.fst) (List.find?_cons_of_pos (beq_self_eq_true name))

theorem name?_eq_some_iff_exists_beq (a : Catalog) (oid : UInt32) (name : String) :
    a.name? oid = some name ↔ ∃ b : Catalog, (a == b) = true ∧ b.oid? name = some oid := by
  refine ⟨exists_beq_oid?, ?_⟩
  rintro ⟨b, h, hoid⟩
  rw [beq_iff_name?.mp h, name?_of_oid? hoid]

theorem Unambiguous.oid?_eq {name : String} (hname : a.Unambiguous name) (h : (a == b) = true) :
    a.oid? name = b.oid? name := by
  have hsome := isSome_oid?_eq_of_beq h name
  cases ha : a.oid? name with
  | none =>
    rw [ha, Option.isSome_none] at hsome
    exact (Option.not_isSome_iff_eq_none.mp (Bool.eq_false_iff.mp hsome.symm)).symm
  | some oid =>
    rw [ha, Option.isSome_some] at hsome
    obtain ⟨oid', hb⟩ := Option.isSome_iff_exists.mp hsome.symm
    have hoid' := (a.name?_eq_some_iff_exists_beq oid' name).mpr ⟨b, h, hb⟩
    rw [hb, hname oid oid' (name?_of_oid? ha) hoid']

/-- Equal catalogs agree on their size, on every identifier, and on whether a name is found. The
identifiers found by a name in the catalogs equal to one are all those that have the name, so that
they are the same exactly where at most one table has it. -/
theorem lookup_of_beq (a : Catalog) :
    (∀ b, (a == b) = true →
      a.size = b.size ∧ a.isEmpty = b.isEmpty ∧ (∀ oid, a.name? oid = b.name? oid) ∧
      ∀ name, (a.oid? name).isSome = (b.oid? name).isSome) ∧
    (∀ name oid, a.name? oid = some name ↔ ∃ b, (a == b) = true ∧ b.oid? name = some oid) ∧
    (∀ name, a.Unambiguous name ↔ ∀ b, (a == b) = true → a.oid? name = b.oid? name) := by
  refine ⟨fun b h => ⟨size_eq_of_beq h, isEmpty_eq_of_beq h, beq_iff_name?.mp h,
    isSome_oid?_eq_of_beq h⟩, fun name oid => a.name?_eq_some_iff_exists_beq oid name,
    fun name => ⟨fun hname b => hname.oid?_eq, fun hagree oid oid' hoid hoid' => ?_⟩⟩
  obtain ⟨b, h, hb⟩ := exists_beq_oid? hoid
  obtain ⟨b', h', hb'⟩ := exists_beq_oid? hoid'
  rw [← hagree b h] at hb
  rw [← hagree b' h'] at hb'
  exact Option.some.inj (hb.symm.trans hb')

/-- A name of two tables leads to either, in catalogs of either order. -/
theorem oid?_reordered :
    (ofList [(1, "t"), (2, "t")] == ofList [(2, "t"), (1, "t")]) = true ∧
      (ofList [(1, "t"), (2, "t")]).oid? "t" ≠ (ofList [(2, "t"), (1, "t")]).oid? "t" := by
  decide +kernel

/-- Names of one table each lead to it in catalogs of either order. -/
theorem lookup_of_beq_reordered :
    let a := ofList [(1, "t"), (2, "u")]
    let b := ofList [(2, "u"), (1, "t")]
    (a == b) = true ∧ a.size = b.size ∧ a.Unambiguous "t" ∧ a.oid? "t" = b.oid? "t" := by
  intro a b
  have h : (a == b) = true := by decide +kernel
  have hname : a.Unambiguous "t" := by
    intro oid oid' hoid hoid'
    rw [name?_eq_some_iff, show a.toList = [(1, "t"), (2, "u")] from rfl] at hoid hoid'
    simp_all
  obtain ⟨hequal, -, hagree⟩ := lookup_of_beq a
  exact ⟨h, (hequal b h).1, hname, (hagree "t").mp hname b h⟩

end SqlSelect.Catalog
