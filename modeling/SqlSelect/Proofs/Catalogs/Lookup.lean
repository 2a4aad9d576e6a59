import SqlSelect.Database.Catalog
import SqlSelect.Proofs.OrderedMap
import Mathlib.Data.Finset.Card
import Mathlib.Data.List.Find

/-!
# Looking up tables by identifier and by name

A repeated identifier renames its entry in place, and of several entries with one name only the
first is found by it. So the look-up by name undoes the look-up by identifier up to earlier entries
of the same name, and undoes it exactly where no two entries share a name.
-/

namespace SqlSelect.Catalog

open OrderedMap

/-- The identifiers of a catalog, in order. -/
def oids (c : Catalog) : List UInt32 := c.names.keys

theorem map_fst_toList (c : Catalog) : c.toList.map Prod.fst = c.oids := rfl

theorem name?_eq_some_iff (c : Catalog) (oid : UInt32) (name : String) :
    c.name? oid = some name ↔ (oid, name) ∈ c.toList :=
  c.names.get?_eq_some_iff oid name

/-- A name leads to the first identifier that has it. -/
theorem oid?_eq_find? (c : Catalog) (name : String) :
    c.oid? name = c.oids.find? fun oid => c.name? oid = some name := by
  have hentry : ∀ entry ∈ c.toList,
      (entry.2 == name) = decide (c.name? entry.1 = some name) := by
    intro entry hentry
    simp only [(c.name?_eq_some_iff entry.1 entry.2).mpr hentry, Option.some.injEq]
    rfl
  rw [← map_fst_toList, List.find?_map, oid?]
  exact congrArg (Option.map Prod.fst) (List.find?_congr hentry)

/-- What a name leads to has this name. -/
theorem name?_of_oid? {c : Catalog} {oid : UInt32} {name : String} (h : c.oid? name = some oid) :
    c.name? oid = some name := by
  rw [oid?_eq_find?] at h
  have hfound := List.find?_some h
  exact of_decide_eq_true hfound

/-- A name that some table has leads to a table, and not to a later one. -/
theorem exists_oid?_of_name? {c : Catalog} {oid : UInt32} {name : String}
    (h : c.name? oid = some name) :
    ∃ first, c.oid? name = some first ∧ c.oids.idxOf first ≤ c.oids.idxOf oid := by
  have hmem : oid ∈ c.oids := List.mem_map_of_mem ((c.name?_eq_some_iff oid name).mp h)
  cases hfind : c.oid? name with
  | none =>
    rw [oid?_eq_find?, List.find?_eq_none] at hfind
    exact absurd (decide_eq_true h) (hfind oid hmem)
  | some first =>
    refine ⟨first, rfl, ?_⟩
    rw [oid?_eq_find?, List.find?_eq_some_iff_append] at hfind
    obtain ⟨hfirst, front, back, hoids, hfront⟩ := hfind
    -- no identifier in front of the first one has the name
    have hnotMem : ∀ other, c.name? other = some name → other ∉ front := by
      intro other hother hin
      have hfalse := hfront other hin
      rw [hother, decide_eq_true rfl] at hfalse
      cases hfalse
    rw [hoids, List.idxOf_append_of_notMem (hnotMem first (of_decide_eq_true hfirst)),
      List.idxOf_append_of_notMem (hnotMem oid h), List.idxOf_cons_self]
    omega

/-- Where names are distinct, the two look-ups undo each other. -/
theorem oid?_eq_some_iff {c : Catalog} (hnames : (c.toList.map Prod.snd).Nodup) (oid : UInt32)
    (name : String) : c.oid? name = some oid ↔ c.name? oid = some name := by
  refine ⟨name?_of_oid?, fun h => ?_⟩
  obtain ⟨first, hfirst, -⟩ := exists_oid?_of_name? h
  have hentry := (c.name?_eq_some_iff oid name).mp h
  have hentry' := (c.name?_eq_some_iff first name).mp (name?_of_oid? hfirst)
  have heq : (first, name) = (oid, name) :=
    List.inj_on_of_nodup_map hnames hentry' hentry rfl
  rw [hfirst, (Prod.mk.inj heq).1]

/-- The identifiers of pairs, each once, in the order of their first pairs. -/
def firstOids (pairs : List (UInt32 × String)) : List UInt32 :=
  (pairs.map Prod.fst).eraseDups

/-- The catalog of pairs has one entry for each identifier, in the order of first pairs, with the
name of the last pair. Both look-ups and the number of tables are read off the pairs, and they agree
with each other. -/
theorem lookup_ofList (pairs : List (UInt32 × String)) :
    (ofList pairs).toList =
      (firstOids pairs).filterMap (fun oid => (lastValue? pairs oid).map (oid, ·)) ∧
    (ofList pairs).toList.map Prod.fst = firstOids pairs ∧
    (∀ oid, (ofList pairs).name? oid = lastValue? pairs oid) ∧
    (∀ oid, (ofList pairs).name? oid = none ↔ oid ∉ pairs.map Prod.fst) ∧
    (∀ name, (ofList pairs).oid? name =
      (firstOids pairs).find? fun oid => lastValue? pairs oid = some name) ∧
    (ofList pairs).size = (pairs.map Prod.fst).toFinset.card ∧
    (∀ oid name, (ofList pairs).oid? name = some oid → (ofList pairs).name? oid = some name) ∧
    (∀ oid name, (ofList pairs).name? oid = some name →
      ∃ first, (ofList pairs).oid? name = some first ∧
        (firstOids pairs).idxOf first ≤ (firstOids pairs).idxOf oid) ∧
    (((ofList pairs).toList.map Prod.snd).Nodup → ∀ oid name,
      (ofList pairs).oid? name = some oid ↔ (ofList pairs).name? oid = some name) := by
  have hoids : (ofList pairs).oids = firstOids pairs := keys_ofList pairs
  have hname : ∀ oid, (ofList pairs).name? oid = lastValue? pairs oid := get?_ofList pairs
  refine ⟨?_, hoids, hname, fun oid => ?_, fun name => ?_, ?_, fun _ _ => name?_of_oid?,
    fun oid name h => ?_, oid?_eq_some_iff⟩
  · have hentries := (ofList pairs).names.entries_eq_filterMap
    rw [show (ofList pairs).names.keys = firstOids pairs from hoids] at hentries
    simp only [← hname]
    exact hentries
  · rw [hname, lastValue?_eq_none_iff]
  · rw [oid?_eq_find?, hoids]
    simp only [hname]
  · have hdistinct : (firstOids pairs).Nodup := hoids ▸ (ofList pairs).names.distinct
    have hset : (firstOids pairs).toFinset = (pairs.map Prod.fst).toFinset := by
      ext oid
      rw [List.mem_toFinset, List.mem_toFinset, firstOids, List.mem_eraseDups]
    rw [← hset, List.toFinset_card_of_nodup hdistinct, ← hoids]
    exact (List.length_map Prod.fst).symm
  · rw [← hoids]
    exact exists_oid?_of_name? h

/-- Renaming the first of two tables gives the second one its name back. -/
example :
    let c := ofList [(30, "events"), (10, "events"), (30, "archive")]
    c.toList = [(30, "archive"), (10, "events")] ∧ c.oid? "events" = some 10 := by
  decide +kernel

end SqlSelect.Catalog
