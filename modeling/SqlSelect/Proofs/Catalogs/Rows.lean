import SqlSelect.Database.Catalog
import SqlSelect.Proofs.OrderedMap
import Mathlib.Data.List.Forall2

/-!
# Catalogs of rows

A catalog is read from rows all or not at all. Rows that each show an entry make the catalog of
these entries, in order. Otherwise the first row that shows none decides the fault, and within the
row the identifier is looked at before the name (`Row.Faulty`). The rows of a catalog's own entries
give the catalog back.
-/

namespace SqlSelect

open OrderedMap

/-! ## What a row shows -/

/-- Whether a value is an object identifier: an integer of 32 bits without sign. -/
def Value.IsOid (v : Value) : Prop := ∃ n : Int64, v = .int n ∧ 0 ≤ n.toInt ∧ n.toInt ≤ 0xFFFFFFFF

namespace Row

/-- A row with an object identifier and a name. -/
def IsEntry (r : Row) : Prop :=
  (∃ v, r.get? "oid" = some v ∧ v.IsOid) ∧ ∃ name, r.get? "relname" = some (.text name)

/-- A row with a given object identifier and name, whatever other columns it has. -/
def Shows (r : Row) (entry : UInt32 × String) : Prop :=
  (∃ n : Int64, r.get? "oid" = some (.int n) ∧ n.toInt = entry.1.toNat) ∧
    r.get? "relname" = some (.text entry.2)

/-- The fault of a row that shows no entry. The name is at fault only if the identifier is not. -/
inductive Faulty (r : Row) : Fault → Prop where
  | noOid (h : r.get? "oid" = none) : Faulty r (.missingColumn "oid")
  | badOid {v : Value} (h : r.get? "oid" = some v) (hv : ¬ v.IsOid) :
    Faulty r (.undecodable "oid" "u32" v.kind)
  | noName {v : Value} (hoid : r.get? "oid" = some v) (hv : v.IsOid)
    (h : r.get? "relname" = none) : Faulty r (.missingColumn "relname")
  | badName {v w : Value} (hoid : r.get? "oid" = some v) (hv : v.IsOid)
    (h : r.get? "relname" = some w) (hw : ∀ name, w ≠ .text name) :
    Faulty r (.undecodable "relname" "text" w.kind)

/-- The row that shows an entry and has no other column. -/
def ofEntry (entry : UInt32 × String) : Row :=
  (Row.empty.insert "oid" (.int (Int64.ofNat entry.1.toNat))).insert "relname" (.text entry.2)

theorem asOid?_eq_some_iff {v : Value} {oid : UInt32} :
    asOid? v = some oid ↔ ∃ n : Int64, v = .int n ∧ n.toInt = oid.toNat := by
  cases v with
  | int n =>
    have hlt := oid.toNat_lt
    rw [asOid?, Option.ite_none_right_eq_some]
    constructor
    · rintro ⟨⟨h0, h32⟩, heq⟩
      obtain rfl := Option.some.inj heq
      refine ⟨n, rfl, ?_⟩
      rw [UInt32.toNat_ofNat_of_lt' (by simp only [UInt32.size]; omega), Int.toNat_of_nonneg h0]
    · rintro ⟨m, hm, heq⟩
      cases hm
      refine ⟨by omega, ?_⟩
      rw [heq, Int.toNat_natCast, UInt32.ofNat_toNat]
  | _ => simp [asOid?]

theorem asOid?_eq_none_iff {v : Value} : asOid? v = none ↔ ¬ v.IsOid := by
  cases v with
  | int n =>
    have hrange : 0 ≤ n.toInt ∧ n.toInt < 0x100000000 ↔ (Value.int n).IsOid := by
      constructor
      · rintro ⟨h0, h32⟩
        exact ⟨n, rfl, h0, by omega⟩
      · rintro ⟨m, hm, h0, h32⟩
        cases hm
        exact ⟨h0, by omega⟩
    rw [asOid?, ← hrange]
    split <;> simp_all
  | _ => simp [asOid?, Value.IsOid]

theorem asText?_eq_some_iff {v : Value} {s : String} : asText? v = some s ↔ v = .text s := by
  cases v <;> simp [asText?]

theorem asText?_eq_none_iff {v : Value} : asText? v = none ↔ ∀ s, v ≠ .text s := by
  cases v <;> simp [asText?]

section Read

variable {α : Type} {expected : String} {as? : Value → Option α} {r : Row} {column : String}

/-- Reading a column looks at the value in it and at nothing else. -/
theorem read_eq :
    r.read expected as? column =
      match r.get? column with
      | none => .error (.missingColumn column)
      | some v =>
        match as? v with
        | none => .error (.undecodable column expected v.kind)
        | some a => .ok a := by
  rw [read, require]
  cases r.get? column with
  | none => rfl
  | some v => cases has : as? v <;> simp [bind, Except.bind, has]

theorem read_eq_ok_iff {a : α} :
    r.read expected as? column = .ok a ↔ ∃ v, r.get? column = some v ∧ as? v = some a := by
  rw [read_eq]
  cases r.get? column with
  | none => simp
  | some v => cases hv : as? v <;> simp [hv]

theorem read_eq_error_iff {fault : Fault} :
    r.read expected as? column = .error fault ↔
      (r.get? column = none ∧ fault = .missingColumn column) ∨
        ∃ v, r.get? column = some v ∧ as? v = none ∧
          fault = .undecodable column expected v.kind := by
  rw [read_eq]
  cases r.get? column with
  | none => simp [eq_comm]
  | some v => cases hv : as? v <;> simp [hv, eq_comm]

end Read

theorem isEntry_iff {r : Row} : r.IsEntry ↔ ∃ entry, r.Shows entry := by
  constructor
  · rintro ⟨⟨v, hoid, n, rfl, h0, h32⟩, name, hname⟩
    refine ⟨(UInt32.ofNat n.toInt.toNat, name), ⟨n, hoid, ?_⟩, hname⟩
    rw [UInt32.toNat_ofNat_of_lt' (by simp only [UInt32.size]; omega), Int.toNat_of_nonneg h0]
  · rintro ⟨entry, ⟨n, hoid, hn⟩, hname⟩
    have hlt := entry.1.toNat_lt
    exact ⟨⟨.int n, hoid, n, rfl, by omega, by omega⟩, entry.2, hname⟩

theorem shows_ofEntry (entry : UInt32 × String) : (ofEntry entry).Shows entry := by
  have hlt := entry.1.toNat_lt
  refine ⟨⟨Int64.ofNat entry.1.toNat, ?_, Int64.toInt_ofNat_of_lt (by omega)⟩, ?_⟩
  · simp [ofEntry, insert, get?, get?_insert]
  · simp [ofEntry, insert, get?, get?_insert]

end Row

/-! ## Reading rows in order -/

namespace Catalog

theorem entryOfRow_eq_ok_iff {r : Row} {entry : UInt32 × String} :
    entryOfRow r = .ok entry ↔ r.Shows entry := by
  have hoid : r.oid "oid" = .ok entry.1 ↔
      ∃ n : Int64, r.get? "oid" = some (.int n) ∧ n.toInt = entry.1.toNat := by
    simp only [Row.oid, Row.read_eq_ok_iff, Row.asOid?_eq_some_iff]
    constructor
    · rintro ⟨v, hv, n, rfl, hn⟩
      exact ⟨n, hv, hn⟩
    · rintro ⟨n, hv, hn⟩
      exact ⟨.int n, hv, n, rfl, hn⟩
  have hname : r.text "relname" = .ok entry.2 ↔ r.get? "relname" = some (.text entry.2) := by
    simp only [Row.text, Row.read_eq_ok_iff, Row.asText?_eq_some_iff, exists_eq_right]
  rw [Row.Shows, ← hoid, ← hname, entryOfRow]
  cases r.oid "oid" with
  | error fault => simp [bind, Except.bind]
  | ok oid =>
    cases r.text "relname" with
    | error fault => simp [bind, Except.bind]
    | ok name => simp [bind, Except.bind, Prod.ext_iff]

/-- A row is at fault for its identifier, or for its name if the identifier is there. -/
theorem entryOfRow_eq_error_iff {r : Row} {fault : Fault} :
    entryOfRow r = .error fault ↔ r.Faulty fault := by
  have hoid : ∀ oid, r.oid "oid" = .ok oid → ∃ v, r.get? "oid" = some v ∧ v.IsOid := by
    intro oid h
    obtain ⟨v, hv, hsome⟩ := Row.read_eq_ok_iff.mp h
    exact ⟨v, hv, by_contra fun hnot => by simp [Row.asOid?_eq_none_iff.mpr hnot] at hsome⟩
  have hsplit : entryOfRow r = .error fault ↔
      r.oid "oid" = .error fault ∨
        ∃ oid, r.oid "oid" = .ok oid ∧ r.text "relname" = .error fault := by
    rw [entryOfRow]
    cases r.oid "oid" with
    | error f => simp [bind, Except.bind]
    | ok oid => cases r.text "relname" <;> simp [bind, Except.bind]
  rw [hsplit]
  constructor
  · rintro (h | ⟨oid, hok, h⟩)
    · rcases Row.read_eq_error_iff.mp h with ⟨hnone, rfl⟩ | ⟨v, hv, hnone, rfl⟩
      · exact .noOid hnone
      · exact .badOid hv (Row.asOid?_eq_none_iff.mp hnone)
    · obtain ⟨v, hv, hisOid⟩ := hoid oid hok
      rcases Row.read_eq_error_iff.mp h with ⟨hnone, rfl⟩ | ⟨w, hw, hnone, rfl⟩
      · exact .noName hv hisOid hnone
      · exact .badName hv hisOid hw (Row.asText?_eq_none_iff.mp hnone)
  · have hok : ∀ {v : Value}, r.get? "oid" = some v → v.IsOid → ∃ oid, r.oid "oid" = .ok oid := by
      intro v hv hisOid
      cases has : Row.asOid? v with
      | none => exact absurd hisOid (Row.asOid?_eq_none_iff.mp has)
      | some oid => exact ⟨oid, Row.read_eq_ok_iff.mpr ⟨v, hv, has⟩⟩
    rintro (h | ⟨h, hv⟩ | ⟨hoid, hv, h⟩ | ⟨hoid, hv, h, hw⟩)
    · exact .inl (Row.read_eq_error_iff.mpr (.inl ⟨h, rfl⟩))
    · exact .inl (Row.read_eq_error_iff.mpr (.inr ⟨_, h, Row.asOid?_eq_none_iff.mpr hv, rfl⟩))
    · obtain ⟨oid, hoid⟩ := hok hoid hv
      exact .inr ⟨oid, hoid, Row.read_eq_error_iff.mpr (.inl ⟨h, rfl⟩)⟩
    · obtain ⟨oid, hoid⟩ := hok hoid hv
      exact .inr ⟨oid, hoid, Row.read_eq_error_iff.mpr
        (.inr ⟨_, h, Row.asText?_eq_none_iff.mpr hw, rfl⟩)⟩

theorem entriesOfRows_eq_ok_iff {rows : List Row} {entries : List (UInt32 × String)} :
    entriesOfRows rows = .ok entries ↔ List.Forall₂ Row.Shows rows entries := by
  induction rows generalizing entries with
  | nil => cases entries <;> simp [entriesOfRows]
  | cons r rest ih =>
    rw [entriesOfRows, List.forall₂_cons_left_iff]
    constructor
    · intro h
      cases hentry : entryOfRow r with
      | error fault => rw [hentry] at h; cases h
      | ok entry =>
        rw [hentry] at h
        cases hentries : entriesOfRows rest with
        | error fault => rw [hentries] at h; cases h
        | ok more =>
          rw [hentries] at h
          cases h
          exact ⟨entry, more, entryOfRow_eq_ok_iff.mp hentry, ih.mp hentries, rfl⟩
    · rintro ⟨entry, more, hentry, hmore, rfl⟩
      rw [entryOfRow_eq_ok_iff.mpr hentry, ih.mpr hmore]
      rfl

theorem exists_shows_iff {rows : List Row} :
    (∃ entries, List.Forall₂ Row.Shows rows entries) ↔ ∀ r ∈ rows, r.IsEntry := by
  induction rows with
  | nil => simp
  | cons r rest ih =>
    rw [List.forall_mem_cons, ← ih, Row.isEntry_iff]
    constructor
    · rintro ⟨entries, h⟩
      obtain ⟨entry, more, hentry, hmore, -⟩ := List.forall₂_cons_left_iff.mp h
      exact ⟨⟨entry, hentry⟩, more, hmore⟩
    · rintro ⟨⟨entry, hentry⟩, more, hmore⟩
      exact ⟨entry :: more, .cons hentry hmore⟩

/-- The first row that shows no entry decides. -/
theorem entriesOfRows_eq_error_iff {rows : List Row} {fault : Fault} :
    entriesOfRows rows = .error fault ↔
      ∃ front r back, rows = front ++ r :: back ∧ (∀ x ∈ front, x.IsEntry) ∧ r.Faulty fault := by
  induction rows with
  | nil => simp [entriesOfRows]
  | cons r rest ih =>
    rw [entriesOfRows]
    constructor
    · intro h
      cases hentry : entryOfRow r with
      | error f =>
        rw [hentry] at h
        cases h
        exact ⟨[], r, rest, rfl, List.forall_mem_nil _, entryOfRow_eq_error_iff.mp hentry⟩
      | ok entry =>
        rw [hentry] at h
        have hisEntry : r.IsEntry := Row.isEntry_iff.mpr ⟨entry, entryOfRow_eq_ok_iff.mp hentry⟩
        cases hentries : entriesOfRows rest with
        | ok more => rw [hentries] at h; cases h
        | error f =>
          rw [hentries] at h
          cases h
          obtain ⟨front, x, back, rfl, hfront, hx⟩ := ih.mp hentries
          exact ⟨r :: front, x, back, rfl, List.forall_mem_cons.mpr ⟨hisEntry, hfront⟩, hx⟩
    · rintro ⟨front, x, back, heq, hfront, hx⟩
      cases front with
      | nil =>
        cases heq
        rw [entryOfRow_eq_error_iff.mpr hx]
        rfl
      | cons y front =>
        cases heq
        obtain ⟨hy, hfront⟩ := List.forall_mem_cons.mp hfront
        obtain ⟨entry, hentry⟩ := Row.isEntry_iff.mp hy
        rw [entryOfRow_eq_ok_iff.mpr hentry, ih.mpr ⟨front, x, back, rfl, hfront, hx⟩]
        rfl

/-- Rows give a catalog exactly when each of them shows an entry; it is the catalog of these
entries, in order. Otherwise the fault is that of the first row that shows none. A catalog is what
the rows of its own entries give. -/
theorem ofRows_rows (rows : List Row) :
    ((∃ c, ofRows rows = .ok c) ↔ ∀ r ∈ rows, r.IsEntry) ∧
    (∀ c, ofRows rows = .ok c ↔
      ∃ entries, List.Forall₂ Row.Shows rows entries ∧ c = ofList entries) ∧
    (∀ fault, ofRows rows = .error fault ↔
      ∃ front r back, rows = front ++ r :: back ∧ (∀ x ∈ front, x.IsEntry) ∧ r.Faulty fault) ∧
    (∀ c : Catalog, ofRows (c.toList.map Row.ofEntry) = .ok c) := by
  have hok : ∀ (rows : List Row) c, ofRows rows = .ok c ↔
      ∃ entries, List.Forall₂ Row.Shows rows entries ∧ c = ofList entries := by
    intro rows c
    rw [ofRows]
    cases hentries : entriesOfRows rows with
    | error fault =>
      refine iff_of_false (fun h => by cases h) ?_
      rintro ⟨entries, hshows, -⟩
      rw [entriesOfRows_eq_ok_iff.mpr hshows] at hentries
      cases hentries
    | ok entries =>
      have hshows := entriesOfRows_eq_ok_iff.mp hentries
      constructor
      · intro h
        cases h
        exact ⟨entries, hshows, rfl⟩
      · rintro ⟨entries', hshows', rfl⟩
        rw [entriesOfRows_eq_ok_iff.mpr hshows'] at hentries
        cases hentries
        rfl
  have herror : ∀ fault, ofRows rows = .error fault ↔
      ∃ front r back, rows = front ++ r :: back ∧ (∀ x ∈ front, x.IsEntry) ∧ r.Faulty fault := by
    intro fault
    rw [← entriesOfRows_eq_error_iff, ofRows]
    cases entriesOfRows rows <;> simp [Except.map]
  refine ⟨?_, hok rows, herror, fun c => (hok _ c).mpr ⟨c.toList, ?_, ?_⟩⟩
  · simp only [hok rows, exists_comm (α := Catalog), exists_and_left, exists_eq, and_true]
    exact exists_shows_iff
  · exact List.forall₂_map_left_iff.mpr
      (List.forall₂_same.mpr fun entry _ => Row.shows_ofEntry entry)
  · exact congrArg Catalog.mk c.names.ofList_entries.symm

end Catalog

end SqlSelect
