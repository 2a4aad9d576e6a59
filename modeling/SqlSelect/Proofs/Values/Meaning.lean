import SqlSelect.Proofs.Calendar.Instant
import SqlSelect.Proofs.OrderedMap
import SqlSelect.Proofs.Values.Equality

/-!
# What equality of values compares

Floats are equal when both are NaN, when both are zeros, or when they are the same. Timestamps are
equal when they are the same point in time, with whatever offsets they were written. Objects of
documents are equal when they hold equal values under the same keys, in whatever order the keys were
written.
-/

namespace SqlSelect

/-! ## Floats -/

namespace Binary64

theorem isNaN_canonical (x : Binary64) : x.canonical.isNaN = x.isNaN := by
  rw [canonical]
  split
  · rename_i h
    rw [h]
    rfl
  · rename_i h
    split
    · exact (Bool.eq_false_iff.mpr h).symm
    · rfl

/-- A NaN has the largest exponent and a zero the least. -/
theorem isZero_of_isNaN {x : Binary64} (h : x.isNaN = true) : x.isZero = false := by
  rw [isNaN, Bool.and_eq_true, beq_iff_eq] at h
  rw [isZero, h.1]
  rfl

theorem isZero_canonical (x : Binary64) : x.canonical.isZero = x.isZero := by
  rw [canonical]
  split
  · rename_i h
    rw [isZero_of_isNaN h]
    rfl
  · split
    · rename_i h
      rw [h]
      rfl
    · rfl

theorem canonical_of_not {x : Binary64} (hnan : ¬ x.isNaN = true) (hzero : ¬ x.isZero = true) :
    x.canonical = x := by
  rw [canonical, if_neg hnan, if_neg hzero]

/-- Every NaN is equal to every other, the zeros are equal, and all else is equal only to itself. -/
theorem beq_iff (x y : Binary64) :
    (x == y) = true ↔
      x.isNaN = true ∧ y.isNaN = true ∨ x.isZero = true ∧ y.isZero = true ∨ x = y := by
  rw [beq_iff_canonical]
  constructor
  · intro h
    have hnan : x.isNaN = y.isNaN := by rw [← isNaN_canonical, h, isNaN_canonical]
    have hzero : x.isZero = y.isZero := by rw [← isZero_canonical, h, isZero_canonical]
    by_cases hx : x.isNaN = true
    · exact .inl ⟨hx, hnan ▸ hx⟩
    · by_cases hx' : x.isZero = true
      · exact .inr (.inl ⟨hx', hzero ▸ hx'⟩)
      · rw [canonical_of_not hx hx', canonical_of_not (hnan ▸ hx) (hzero ▸ hx')] at h
        exact .inr (.inr h)
  · rintro (⟨hx, hy⟩ | ⟨hx, hy⟩ | rfl)
    · rw [canonical, canonical, if_pos hx, if_pos hy]
    · have hnan : ∀ {z : Binary64}, z.isZero = true → ¬ z.isNaN = true := by
        intro z hz hnan
        rw [isZero_of_isNaN hnan] at hz
        cases hz
      rw [canonical, canonical, if_neg (hnan hx), if_neg (hnan hy), if_pos hx, if_pos hy]
    · rfl

end Binary64

/-! ## Objects -/

namespace Json

namespace Members

theorem Sorted.nodup_keys {members : List (String × Json)} (h : Sorted members) :
    (members.map Prod.fst).Nodup :=
  List.pairwise_map.mpr (h.imp fun hlt => String.ne_of_lt hlt)

theorem Sorted.mem_iff_lookup {members : List (String × Json)} (h : Sorted members) (key : String)
    (value : Json) : (key, value) ∈ members ↔ members.lookup key = some value :=
  (OrderedMap.get?_eq_some_iff ⟨members, h.nodup_keys⟩ key value).symm

/-- Sorted members are determined by what they hold under each key. -/
theorem Sorted.eq_of_lookup_eq {ms ns : List (String × Json)} (hms : Sorted ms) (hns : Sorted ns)
    (h : ∀ key, ms.lookup key = ns.lookup key) : ms = ns := by
  have hmem : ∀ m, m ∈ ms ↔ m ∈ ns := by
    rintro ⟨key, value⟩
    rw [hms.mem_iff_lookup, hns.mem_iff_lookup, h]
  have hperm : ms.Perm ns :=
    (List.perm_ext_iff_of_nodup hms.nodup_keys.of_map hns.nodup_keys.of_map).mpr hmem
  exact hperm.eq_of_pairwise
    (fun _ _ _ _ hlt hgt => absurd (String.lt_trans hlt hgt) (String.lt_irrefl _)) hms hns

theorem lookup_normalMembers (members : List (String × Json)) (key : String) :
    (normalMembers members).lookup key = (members.lookup key).map normal := by
  induction members with
  | nil => rfl
  | cons m ms ih =>
    rw [normalMembers, List.lookup_cons, List.lookup_cons, ih]
    cases key == m.1 <;> rfl

end Members

/-- Objects are equal when they hold equal values under the same keys. -/
theorem beq_object_iff {ms ns : List (String × Json)} (hms : Members.Sorted ms)
    (hns : Members.Sorted ns) :
    (Json.object ms == .object ns) = true ↔
      ∀ key, (ms.lookup key == ns.lookup key) = true := by
  have hvalue : ∀ x y : Option Json, (x == y) = true ↔ x.map normal = y.map normal := by
    intro x y
    cases x <;> cases y <;> simp [beq_iff_normal]
  simp only [beq_iff_normal, normal, object.injEq, hvalue, ← Members.lookup_normalMembers]
  constructor
  · exact fun h key => congrArg (List.lookup key) h
  · exact (sorted_normalMembers hms).eq_of_lookup_eq (sorted_normalMembers hns)

end Json

end SqlSelect
