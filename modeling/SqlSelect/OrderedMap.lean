/-!
# Maps in order of insertion

A map keeps its entries in the order in which their keys first came. Putting a value under a key
that is there leaves the entry in its place. Equality of maps does not look at the order.
-/

namespace SqlSelect

/-- A finite map with distinct keys in order of insertion. -/
structure OrderedMap (κ α : Type) where
  entries : List (κ × α)
  distinct : (entries.map Prod.fst).Nodup

namespace OrderedMap

variable {κ α : Type} [DecidableEq κ]

/-- Put a value under a key: in place of the entry of that key, or at the end. -/
def assign (key : κ) (value : α) : List (κ × α) → List (κ × α)
  | [] => [(key, value)]
  | (k, v) :: rest => if k = key then (key, value) :: rest else (k, v) :: assign key value rest

theorem keys_assign (key : κ) (value : α) (entries : List (κ × α)) :
    (assign key value entries).map Prod.fst =
      if key ∈ entries.map Prod.fst then entries.map Prod.fst
      else entries.map Prod.fst ++ [key] := by
  induction entries with
  | nil => rfl
  | cons head rest ih =>
    obtain ⟨k, v⟩ := head
    by_cases h : k = key
    · subst h
      simp [assign]
    · have hne : ¬ key = k := fun e => h e.symm
      simp only [assign, if_neg h, List.map_cons, ih, List.mem_cons, hne, false_or]
      split <;> rfl

theorem nodup_keys_assign (key : κ) (value : α) {entries : List (κ × α)}
    (h : (entries.map Prod.fst).Nodup) : ((assign key value entries).map Prod.fst).Nodup := by
  rw [keys_assign]
  split
  · exact h
  · rename_i hkey
    refine List.nodup_append.2 ⟨h, by simp, ?_⟩
    intro a ha b hb
    rw [List.mem_singleton.1 hb]
    rintro rfl
    exact hkey ha

theorem lookup_assign (key k : κ) (value : α) (entries : List (κ × α)) :
    (assign key value entries).lookup k = if k = key then some value else entries.lookup k := by
  induction entries with
  | nil =>
    by_cases h : k = key
    · simp [assign, h]
    · have hb : (k == key) = false := beq_eq_false_iff_ne.2 h
      simp [assign, List.lookup_cons, h, hb]
  | cons head rest ih =>
    obtain ⟨l, v⟩ := head
    by_cases hkl : k = l
    · subst hkl
      by_cases h : k = key <;> simp [assign, h]
    · have hb : (k == l) = false := beq_eq_false_iff_ne.2 hkl
      by_cases hl : l = key
      · subst hl
        simp [assign, List.lookup_cons, hkl, hb]
      · rw [assign, if_neg hl, List.lookup_cons, List.lookup_cons, hb, ih]

/-- The map without entries. -/
def empty : OrderedMap κ α := ⟨[], List.nodup_nil⟩

/-- The map with a value under a key. -/
def insert (m : OrderedMap κ α) (key : κ) (value : α) : OrderedMap κ α :=
  ⟨assign key value m.entries, nodup_keys_assign key value m.distinct⟩

/-- The map of pairs, inserted one after the other. -/
def ofList (pairs : List (κ × α)) : OrderedMap κ α :=
  pairs.foldl (fun m pair => m.insert pair.1 pair.2) empty

/-- The value under a key. -/
def get? (m : OrderedMap κ α) (key : κ) : Option α :=
  m.entries.lookup key

theorem get?_insert (m : OrderedMap κ α) (key k : κ) (value : α) :
    (m.insert key value).get? k = if k = key then some value else m.get? k :=
  lookup_assign key k value m.entries

/-- The number of entries. -/
def size (m : OrderedMap κ α) : Nat :=
  m.entries.length

/-- Whether there are no entries. -/
def isEmpty (m : OrderedMap κ α) : Bool :=
  m.entries.isEmpty

/-- Equality of maps: as many entries, and every entry of one is in the other. -/
protected def beq [BEq α] (m n : OrderedMap κ α) : Bool :=
  m.size == n.size &&
    m.entries.all fun (key, value) =>
      match n.get? key with
      | some other => value == other
      | none => false

instance [BEq α] : BEq (OrderedMap κ α) := ⟨OrderedMap.beq⟩

end OrderedMap

end SqlSelect
