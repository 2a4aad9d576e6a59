import SqlSelect.OrderedMap
import Mathlib.Data.List.Basic
import Mathlib.Data.Finset.Card
import Mathlib.Data.List.Induction
import Mathlib.Data.List.Perm.Subperm

/-!
# Maps of pairs

What a map of pairs holds, in terms of the pairs alone: one entry for each key, in the order in
which the keys first come (`keys_ofList`), with the value that comes last under the key
(`get?_ofList`). A map is determined by its entries, and it is the map of them (`ofList_entries`).
Equality of maps is equality of what they hold under every key (`beq_iff_get?`).
-/

namespace SqlSelect.OrderedMap

variable {κ α : Type}

/-- The keys of a map, in order. -/
def keys (m : OrderedMap κ α) : List κ := m.entries.map Prod.fst

theorem nodup_keys (m : OrderedMap κ α) : m.keys.Nodup := m.distinct

theorem length_keys (m : OrderedMap κ α) : m.keys.length = m.size := List.length_map Prod.fst

theorem eq_of_entries_eq {m n : OrderedMap κ α} (h : m.entries = n.entries) : m = n := by
  cases m
  cases n
  cases h
  rfl

variable [DecidableEq κ]

/-- The value of the last pair with a key. -/
def lastValue? (pairs : List (κ × α)) (key : κ) : Option α := pairs.reverse.lookup key

/-! ## Looking up a key -/

theorem get?_eq_some_iff (m : OrderedMap κ α) (key : κ) (value : α) :
    m.get? key = some value ↔ (key, value) ∈ m.entries := by
  rw [get?, List.lookup_eq_some_iff]
  constructor
  · rintro ⟨front, back, heq, -⟩
    rw [heq]
    exact List.mem_append_right front List.mem_cons_self
  · intro hmem
    obtain ⟨front, back, heq⟩ := List.append_of_mem hmem
    refine ⟨front, back, heq, fun entry hentry => bne_iff_ne.mpr ?_⟩
    -- an entry of the same key in front would repeat the key
    have hdistinct := m.distinct
    rw [heq, List.map_append, List.map_cons] at hdistinct
    exact (List.nodup_append.mp hdistinct).2.2 entry.1 (List.mem_map_of_mem hentry) key
      List.mem_cons_self |>.symm

/-- The order of the entries does not matter. -/
theorem get?_eq_of_perm {m n : OrderedMap κ α} (h : m.entries.Perm n.entries) (key : κ) :
    m.get? key = n.get? key :=
  Option.ext fun value => by rw [get?_eq_some_iff, get?_eq_some_iff, h.mem_iff]

theorem get?_eq_none_iff (m : OrderedMap κ α) (key : κ) : m.get? key = none ↔ key ∉ m.keys := by
  rw [get?, List.lookup_eq_none_iff, keys, List.mem_map]
  constructor
  · rintro h ⟨entry, hentry, rfl⟩
    exact bne_iff_ne.mp (h entry hentry) rfl
  · intro h entry hentry
    exact bne_iff_ne.mpr fun heq => h ⟨entry, hentry, heq.symm⟩

/-- The entries are the keys with their values. -/
theorem entries_eq_filterMap (m : OrderedMap κ α) :
    m.entries = m.keys.filterMap fun key => (m.get? key).map (key, ·) := by
  rw [keys, List.filterMap_map]
  have hentry : ∀ entry ∈ m.entries,
      ((fun key => (m.get? key).map (key, ·)) ∘ Prod.fst) entry = some entry := by
    intro entry hentry
    rw [Function.comp_apply, (m.get?_eq_some_iff entry.1 entry.2).mpr hentry, Option.map_some]
  rw [List.filterMap_congr hentry, List.filterMap_some]

/-! ## Inserting pair by pair -/

theorem entries_insert (m : OrderedMap κ α) (key : κ) (value : α) :
    (m.insert key value).entries = assign key value m.entries := rfl

theorem ofList_append_singleton (pairs : List (κ × α)) (pair : κ × α) :
    ofList (pairs ++ [pair]) = (ofList pairs).insert pair.1 pair.2 :=
  List.foldl_append

/-- The keys come in the order of their first pairs. -/
theorem keys_ofList (pairs : List (κ × α)) :
    (ofList pairs).keys = (pairs.map Prod.fst).eraseDups := by
  induction pairs using List.reverseRecOn with
  | nil => rfl
  | append_singleton pairs pair ih =>
    have hmem : pair.1 ∈ (ofList pairs).keys ↔ pair.1 ∈ pairs.map Prod.fst := by
      rw [ih, List.mem_eraseDups]
    rw [ofList_append_singleton, keys, entries_insert, keys_assign, ← keys, List.map_append,
      List.eraseDups_append, ← ih]
    by_cases hkey : pair.1 ∈ (ofList pairs).keys
    · rw [if_pos hkey]
      simp [List.removeAll, hmem.mp hkey]
    · rw [if_neg hkey]
      simp [List.removeAll, mt hmem.mpr hkey, List.eraseDups_cons]

/-- A key has the value of its last pair. -/
theorem get?_ofList (pairs : List (κ × α)) (key : κ) :
    (ofList pairs).get? key = lastValue? pairs key := by
  induction pairs using List.reverseRecOn with
  | nil => rfl
  | append_singleton pairs pair ih =>
    rw [ofList_append_singleton, get?_insert, ih, lastValue?, lastValue?, List.reverse_append,
      List.reverse_singleton, List.singleton_append, List.lookup_cons]
    by_cases hkey : key = pair.1
    · rw [if_pos hkey, beq_iff_eq.mpr hkey]
    · rw [if_neg hkey, beq_eq_false_iff_ne.mpr hkey]

theorem lastValue?_eq_none_iff (pairs : List (κ × α)) (key : κ) :
    lastValue? pairs key = none ↔ key ∉ pairs.map Prod.fst := by
  rw [← get?_ofList, get?_eq_none_iff, keys_ofList, List.mem_eraseDups]

theorem entries_ofList (pairs : List (κ × α)) :
    (ofList pairs).entries =
      (pairs.map Prod.fst).eraseDups.filterMap fun key => (lastValue? pairs key).map (key, ·) := by
  rw [entries_eq_filterMap, keys_ofList]
  simp only [get?_ofList]

/-- There are as many entries as different keys. -/
theorem size_ofList (pairs : List (κ × α)) :
    (ofList pairs).size = (pairs.map Prod.fst).toFinset.card := by
  rw [← length_keys, ← List.toFinset_card_of_nodup (nodup_keys _), keys_ofList]
  congr 1
  ext key
  rw [List.mem_toFinset, List.mem_toFinset, List.mem_eraseDups]

/-- A new key goes to the end. -/
theorem assign_of_notMem {key : κ} {entries : List (κ × α)} (h : key ∉ entries.map Prod.fst)
    (value : α) : assign key value entries = entries ++ [(key, value)] := by
  induction entries with
  | nil => rfl
  | cons head rest ih =>
    rw [List.map_cons, List.mem_cons, not_or] at h
    rw [assign, if_neg (Ne.symm h.1), ih h.2, List.cons_append]

/-- A map is the map of its entries. -/
theorem ofList_entries (m : OrderedMap κ α) : ofList m.entries = m := by
  suffices h : ∀ entries : List (κ × α), (entries.map Prod.fst).Nodup →
      (ofList entries).entries = entries from eq_of_entries_eq (h m.entries m.distinct)
  intro entries hdistinct
  induction entries using List.reverseRecOn with
  | nil => rfl
  | append_singleton entries entry ih =>
    rw [List.map_append, List.nodup_append] at hdistinct
    obtain ⟨hentries, -, hfresh⟩ := hdistinct
    have hnew : entry.1 ∉ entries.map Prod.fst := fun hmem =>
      hfresh entry.1 hmem entry.1 (List.mem_singleton_self entry.1) rfl
    rw [ofList_append_singleton, entries_insert, ih hentries, assign_of_notMem hnew]

/-! ## Equality -/

theorem isSome_get?_iff (m : OrderedMap κ α) (key : κ) : (m.get? key).isSome ↔ key ∈ m.keys := by
  rw [← Option.ne_none_iff_isSome, Ne, get?_eq_none_iff, not_not]

section Equality

variable [BEq α] {m n : OrderedMap κ α}

theorem beq_iff_entries :
    (m == n) = true ↔ m.size = n.size ∧
      ∀ entry ∈ m.entries, ∃ other, n.get? entry.1 = some other ∧ (entry.2 == other) = true := by
  show OrderedMap.beq m n = true ↔ _
  rw [OrderedMap.beq, Bool.and_eq_true, beq_iff_eq, List.all_eq_true]
  refine and_congr_right fun _ => forall₂_congr fun entry _ => ?_
  obtain ⟨key, value⟩ := entry
  dsimp only
  cases n.get? key <;> simp

/-- Only the keys of the first map are looked for. That the second has no other key is a matter of
counting: the keys of each map are distinct, and there are as many. -/
theorem keys_perm_of_beq (h : (m == n) = true) : m.keys.Perm n.keys := by
  obtain ⟨hsize, hentries⟩ := beq_iff_entries.mp h
  have hsubset : m.keys ⊆ n.keys := by
    intro key hkey
    obtain ⟨entry, hentry, rfl⟩ := List.mem_map.mp hkey
    obtain ⟨other, hother, -⟩ := hentries entry hentry
    exact (n.isSome_get?_iff entry.1).mp (Option.isSome_of_eq_some hother)
  refine (m.nodup_keys.subperm hsubset).perm_of_length_le ?_
  rw [length_keys, length_keys, hsize]

/-- Maps are equal when they hold equal values under every key. -/
theorem beq_iff_get? : (m == n) = true ↔ ∀ key, (m.get? key == n.get? key) = true := by
  constructor
  · intro h key
    have hkey := (keys_perm_of_beq h).mem_iff (a := key)
    cases hm : m.get? key with
    | none =>
      rw [get?_eq_none_iff, hkey, ← get?_eq_none_iff] at hm
      rw [hm]
      rfl
    | some value =>
      have hentry := (m.get?_eq_some_iff key value).mp hm
      obtain ⟨other, hother, hvalue⟩ := (beq_iff_entries.mp h).2 (key, value) hentry
      rw [hother, Option.some_beq_some]
      exact hvalue
  · intro h
    have hkeys : ∀ key, key ∈ m.keys ↔ key ∈ n.keys := by
      intro key
      rw [← isSome_get?_iff, ← isSome_get?_iff]
      have hkey := h key
      revert hkey
      cases m.get? key <;> cases n.get? key <;> simp
    have hperm := (List.perm_ext_iff_of_nodup m.nodup_keys n.nodup_keys).mpr hkeys
    refine beq_iff_entries.mpr ⟨by rw [← length_keys, ← length_keys, hperm.length_eq], ?_⟩
    intro entry hentry
    have hkey := h entry.1
    rw [(m.get?_eq_some_iff entry.1 entry.2).mpr hentry] at hkey
    cases hn : n.get? entry.1 with
    | none => rw [hn] at hkey; cases hkey
    | some other => exact ⟨other, rfl, by rwa [hn, Option.some_beq_some] at hkey⟩

theorem size_eq_of_beq (h : (m == n) = true) : m.size = n.size := (beq_iff_entries.mp h).1

instance [EquivBEq α] : EquivBEq (Option α) where
  rfl := by
    intro a
    cases a <;> simp
  symm := by
    intro a b h
    cases a <;> cases b <;> simp_all [BEq.comm]
  trans := by
    intro a b c hab hbc
    cases b with
    | none => simp_all
    | some b =>
      cases a <;> cases c <;> simp at hab hbc ⊢
      exact BEq.trans hab hbc

instance [EquivBEq α] : EquivBEq (OrderedMap κ α) where
  rfl := by
    intro m
    exact beq_iff_get?.mpr fun key => BEq.rfl
  symm := by
    intro m n h
    exact beq_iff_get?.mpr fun key => BEq.symm (beq_iff_get?.mp h key)
  trans := by
    intro l m n hlm hmn
    exact beq_iff_get?.mpr fun key => BEq.trans (beq_iff_get?.mp hlm key) (beq_iff_get?.mp hmn key)

end Equality

end SqlSelect.OrderedMap
