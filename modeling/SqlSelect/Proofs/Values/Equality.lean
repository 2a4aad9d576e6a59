import SqlSelect.Proofs.Induction
import Mathlib.Data.List.Basic

/-!
# Equality of values

Values are equal as numbers, not as bit patterns: every NaN equals every other, and the zeros are
equal, also inside a document. Each value has a normal form, in which a float stands in its
canonical pattern, and two values are equal exactly when their normal forms are the same
(`beq_iff_normal`). So equality is an equivalence, and what does not look at the bits of floats
cannot tell equal values apart.
-/

namespace SqlSelect

/-- An equality that compares normal forms is an equivalence. -/
theorem equivBEq_of_normal {α β : Type} [BEq α] {normal : α → β}
    (h : ∀ a b : α, (a == b) = true ↔ normal a = normal b) : EquivBEq α where
  rfl := (h _ _).mpr rfl
  symm hab := (h _ _).mpr ((h _ _).mp hab).symm
  trans hab hbc := (h _ _).mpr (((h _ _).mp hab).trans ((h _ _).mp hbc))

/-! ## Numbers -/

theorem Binary64.isFinite_canonical {x : Binary64} (h : x.isFinite = true) :
    x.canonical.isFinite = true := by
  have hnan : x.isNaN = false := by
    rw [isNaN, Bool.and_eq_false_iff]
    exact .inl (beq_eq_false_iff_ne.mpr (bne_iff_ne.mp h))
  rw [canonical, hnan, if_neg Bool.false_ne_true]
  split
  · exact isFinite_zero false
  · exact h

namespace Json

namespace Number

/-- A number with its canonical pattern. -/
def normal : Number → Number
  | .int n range => .int n range
  | .float x finite => .float x.canonical (Binary64.isFinite_canonical finite)

theorem beq_iff_normal (m n : Number) : (m == n) = true ↔ m.normal = n.normal := by
  show Number.beq m n = true ↔ _
  cases m <;> cases n <;> simp [Number.beq, normal, Binary64.beq_iff_canonical]

end Number

/-! ## Documents -/

mutual

/-- A value with canonical numbers. -/
def normal : Json → Json
  | .null => .null
  | .bool b => .bool b
  | .number n => .number n.normal
  | .string s => .string s
  | .array items => .array (normalItems items)
  | .object members => .object (normalMembers members)

/-- Items with canonical numbers. -/
def normalItems : List Json → List Json
  | [] => []
  | x :: xs => x.normal :: normalItems xs

/-- Members with canonical numbers. -/
def normalMembers : List (String × Json) → List (String × Json)
  | [] => []
  | (key, x) :: ms => (key, x.normal) :: normalMembers ms

end

theorem normalItems_eq_map (items : List Json) : normalItems items = items.map normal := by
  induction items with
  | nil => rfl
  | cons x xs ih => rw [normalItems, ih, List.map_cons]

theorem normalMembers_eq_map (members : List (String × Json)) :
    normalMembers members = members.map (Prod.map id normal) := by
  induction members with
  | nil => rfl
  | cons m ms ih => rw [normalMembers, ih, List.map_cons]; rfl

theorem beqItems_iff {xs : List Json}
    (ih : ∀ x ∈ xs, ∀ y, (x == y) = true ↔ x.normal = y.normal) (ys : List Json) :
    Json.beqItems xs ys = true ↔ xs.map normal = ys.map normal := by
  induction xs generalizing ys with
  | nil => cases ys <;> simp [Json.beqItems]
  | cons x xs ihxs =>
    obtain ⟨hx, hxs⟩ := List.forall_mem_cons.mp ih
    cases ys with
    | nil => simp [Json.beqItems]
    | cons y ys =>
      rw [Json.beqItems, Bool.and_eq_true, ihxs hxs, List.map_cons, List.map_cons, List.cons.injEq]
      exact and_congr_left fun _ => hx y

theorem beqMembers_iff {ms : List (String × Json)}
    (ih : ∀ m ∈ ms, ∀ y, (m.2 == y) = true ↔ m.2.normal = y.normal) (ns : List (String × Json)) :
    Json.beqMembers ms ns = true ↔
      ms.map (Prod.map id normal) = ns.map (Prod.map id normal) := by
  induction ms generalizing ns with
  | nil => cases ns <;> simp [Json.beqMembers]
  | cons m ms ihms =>
    obtain ⟨hm, hms⟩ := List.forall_mem_cons.mp ih
    cases ns with
    | nil => simp [Json.beqMembers]
    | cons n ns =>
      rw [Json.beqMembers, Bool.and_eq_true, Bool.and_eq_true, ihms hms, List.map_cons,
        List.map_cons, List.cons.injEq, beq_iff_eq, Prod.map, Prod.map, Prod.mk.injEq]
      exact and_congr_left fun _ => and_congr_right fun _ => hm n.2

theorem beq_iff_normal (x y : Json) : (x == y) = true ↔ x.normal = y.normal := by
  show Json.beq x y = true ↔ _
  induction x generalizing y with
  | array items ih =>
    cases y with
    | array items' =>
      rw [Json.beq, beqItems_iff ih, normal, normal, normalItems_eq_map, normalItems_eq_map,
        Json.array.injEq]
    | _ => simp [Json.beq, normal]
  | object members ih =>
    cases y with
    | object members' =>
      rw [Json.beq, beqMembers_iff ih, normal, normal, normalMembers_eq_map, normalMembers_eq_map,
        Json.object.injEq]
    | _ => simp [Json.beq, normal]
  | _ => cases y <;> simp [Json.beq, normal, Number.beq_iff_normal]

/-- The order of the keys does not depend on the values. -/
theorem sorted_normalMembers {members : List (String × Json)} (h : Members.Sorted members) :
    Members.Sorted (normalMembers members) := by
  rw [normalMembers_eq_map]
  exact List.pairwise_map.mpr h

theorem canonical_normal {x : Json} (h : x.Canonical) : x.normal.Canonical := by
  induction x with
  | array items ih =>
    rw [normal, Canonical, normalItems_eq_map, canonicalItems_iff, List.forall_mem_map]
    exact fun x hx => ih x hx ((canonicalItems_iff items).mp h x hx)
  | object members ih =>
    refine ⟨sorted_normalMembers h.1, ?_⟩
    rw [normalMembers_eq_map, canonicalMembers_iff, List.forall_mem_map]
    exact fun m hm => ih m hm ((canonicalMembers_iff members).mp h.2 m hm)
  | _ => trivial

/-- A document with canonical numbers. -/
def Document.normal (d : Document) : Document := ⟨d.root.normal, canonical_normal d.canonical⟩

theorem Document.beq_iff_normal (d e : Document) : (d == e) = true ↔ d.normal = e.normal := by
  obtain ⟨x, hx⟩ := d
  obtain ⟨y, hy⟩ := e
  exact (Json.beq_iff_normal x y).trans (Document.mk.injEq ..).symm.to_iff

end Json

/-! ## Values -/

namespace Value

/-- A value with canonical numbers. -/
def normal : Value → Value
  | .float x => .float x.canonical
  | .json document => .json document.normal
  | v => v

theorem beq_iff_normal (v w : Value) : (v == w) = true ↔ v.normal = w.normal := by
  show Value.beq v w = true ↔ _
  cases v <;> cases w <;>
    simp [Value.beq, normal, Binary64.beq_iff_canonical, Json.Document.beq_iff_normal]

instance : EquivBEq Value := equivBEq_of_normal beq_iff_normal

theorem kind_normal (v : Value) : v.normal.kind = v.kind := by
  cases v <;> rfl

end Value

end SqlSelect
