import SqlSelect.Value.Codec
import SqlSelect.Proofs.Calendar.Text
import SqlSelect.Proofs.Json.Documents
import SqlSelect.Proofs.Uuid

/-!
# Values survive their export

The JSON text of a value is read as the tree of its JSON form, and the key in front of the payload
says how the payload is read. Every kind but the floats and the timestamps reads its own payload
back; a timestamp is read off the clock, which loses a leap second that is not shown as 60. The
floats that are not finite are the only values of which the text is refused
(`ofJsonText?_toJsonText`).
-/

namespace SqlSelect.Value

open Json Calendar

/-- The value holds no floating-point number. -/
def FloatFree : Value → Prop
  | .float _ => False
  | .json document => document.root.FloatFree
  | _ => True

/-- The value with its timestamp as it is read off the clock. -/
def onClock : Value → Value
  | .timestamp t => .timestamp t.onClock
  | v => v

/-- The number of containers inside each other in a JSON payload. -/
def jsonDepth : Value → Nat
  | .json document => document.root.depth
  | _ => 0

/-! ## Payloads -/

/-- The text of a value is read by its tree. -/
theorem ofJsonText?_eq (v : Value) : ofJsonText? v.toJsonText = ofTree? v.toJson.tree := by
  rw [ofJsonText?, toJsonText, parse?_text, Option.bind_some]

/-- The key in front of a payload is found again. -/
theorem ofTree?_tagged (key : String) (payload : Json) :
    ofTree? (tagged key payload).tree = ofPayload? key payload.tree := by
  show (stringOfUnits? (units key)).bind _ = _
  rw [stringOfUnits?_units, Option.bind_some]

theorem int64?_intNumber (n : Int64) : int64? (intNumber n).numeral = some n := by
  have hlt : n.toInt < 0x8000000000000000 := n.toInt_lt
  show int64? (.ofInt n.toInt) = _
  rw [int64?, Number.ofNumeral?_ofInt ⟨n.le_toInt, Int.lt_trans hlt (by decide)⟩]
  dsimp only
  rw [if_pos hlt, Int64.ofInt_toInt]

theorem octet?_octetNumber (octet : UInt8) : octet? (octetNumber octet).numeral = some octet := by
  have hlt : octet.toNat < 256 := octet.toNat_lt
  have hrange : (0 : Int) ≤ octet.toNat ∧ (octet.toNat : Int) < 256 := by omega
  show octet? (.ofInt octet.toNat) = _
  rw [octet?, Number.ofNumeral?_ofInt (by omega)]
  dsimp only
  rw [if_pos hrange, Int.toNat_natCast, UInt8.ofNat_toNat]

theorem octets?_itemTrees (octets : List UInt8) :
    octets? (itemTrees (octets.map fun o => .number (octetNumber o))) = some octets := by
  induction octets with
  | nil => rfl
  | cons octet rest ih =>
    rw [List.map_cons, itemTrees, tree, octets?, octet?_octetNumber, ih]
    rfl

/-- A payload that is written as a string is read as this string. -/
theorem ofStringPayload?_stringJson {α : Type} (read? : String → Option α) (chars : List Char) :
    ofStringPayload? read? (stringJson chars).tree = read? (String.ofList chars) := by
  show (stringOfUnits? (units (String.ofList chars))).bind read? = _
  rw [stringOfUnits?_units, Option.bind_some]

/-! ## Values -/

/-- A float that is not finite is written as null, which no float is read from. -/
theorem ofJsonText?_of_not_isFinite {x : Binary64} (h : x.isFinite = false) :
    ofJsonText? (Value.float x).toJsonText = none := by
  rw [ofJsonText?_eq, toJson, ofTree?_tagged, floatJson, dif_neg (Bool.eq_false_iff.mp h)]
  rfl

/-- Every other value is read as a value, and as itself but for the clock if it has no floats. -/
theorem exists_ofJsonText? {v : Value} (hdepth : v.jsonDepth ≤ 126)
    (hfinite : ∀ x, v = .float x → x.isFinite = true) :
    ∃ w, ofJsonText? v.toJsonText = some w ∧ (v.FloatFree → w = v.onClock) := by
  rw [ofJsonText?_eq]
  cases v with
  | null => exact ⟨.null, rfl, fun _ => rfl⟩
  | bool b =>
    refine ⟨.bool b, ?_, fun _ => rfl⟩
    rw [toJson, ofTree?_tagged]
    rfl
  | int n =>
    refine ⟨.int n, ?_, fun _ => rfl⟩
    rw [toJson, ofTree?_tagged]
    show (int64? (intNumber n).numeral).map Value.int = _
    rw [int64?_intNumber, Option.map_some]
  | float x =>
    have hx := hfinite x rfl
    obtain ⟨m, hm⟩ := Number.ofNumeral?_numeral (.float x hx)
    refine ⟨.float m.toBinary64, ?_, fun hfloat => absurd hfloat id⟩
    rw [toJson, ofTree?_tagged, floatJson, dif_pos hx]
    show (Number.ofNumeral? (Number.float x hx).numeral).map (fun n => Value.float n.toBinary64) = _
    rw [hm, Option.map_some]
  | text s =>
    refine ⟨.text s, ?_, fun _ => rfl⟩
    rw [toJson, ofTree?_tagged]
    show ((stringOfUnits? (units s)).bind some).map Value.text = _
    rw [stringOfUnits?_units, Option.bind_some, Option.map_some]
  | bytes octets =>
    refine ⟨.bytes octets, ?_, fun _ => rfl⟩
    rw [toJson, ofTree?_tagged]
    show (octets? (itemTrees _)).map Value.bytes = _
    rw [octets?_itemTrees, Option.map_some]
  | uuid u =>
    refine ⟨.uuid u, ?_, fun _ => rfl⟩
    rw [toJson, ofTree?_tagged]
    show (ofStringPayload? Uuid.parse? (stringJson u.chars).tree).map Value.uuid = _
    rw [ofStringPayload?_stringJson, Uuid.parse?_chars, Option.map_some]
  | date d =>
    refine ⟨.date d, ?_, fun _ => rfl⟩
    rw [toJson, ofTree?_tagged]
    show (ofStringPayload? Date.parse? (stringJson d.chars).tree).map Value.date = _
    rw [ofStringPayload?_stringJson, Date.parse?_chars, Option.map_some]
  | timestamp t =>
    refine ⟨.timestamp t.onClock, ?_, fun _ => rfl⟩
    rw [toJson, ofTree?_tagged]
    show (ofStringPayload? Timestamp.parse? (stringJson t.zuluChars).tree).map Value.timestamp = _
    rw [ofStringPayload?_stringJson, Timestamp.parse?_zuluChars, Option.map_some]
  | json document =>
    obtain ⟨e, he, hsame⟩ := document.ofTree?_tree hdepth
    refine ⟨.json e, ?_, fun hfloat => congrArg Value.json (hsame hfloat)⟩
    rw [toJson, ofTree?_tagged]
    show (Document.ofTree? 126 document.root.tree).map Value.json = _
    rw [he, Option.map_some]

/-- Of all values only the leap seconds that are not shown as 60 are moved. -/
theorem onClock_eq_self_iff (v : Value) :
    v.onClock = v ↔ ∀ t, v = .timestamp t → t.nano < nanosInSecond ∨ t.second = 59 := by
  cases v with
  | timestamp t =>
    simp only [onClock, timestamp.injEq, Timestamp.onClock_eq_self_iff, forall_eq']
  | _ => simp [onClock]

/-- A value whose payload is not nested too deep and that has no floats is read from its JSON text,
with its timestamp off the clock. So it is read back exactly unless it lies in a leap second that is
not shown as 60. The only values of which the text is refused are the floats that are not finite. -/
theorem ofJsonText?_toJsonText (v : Value) (hdepth : v.jsonDepth ≤ 126) :
    (v.FloatFree → ofJsonText? v.toJsonText = some v.onClock) ∧
      (v.FloatFree → (ofJsonText? v.toJsonText = some v ↔
        ∀ t, v = .timestamp t → t.nano < nanosInSecond ∨ t.second = 59)) ∧
      (ofJsonText? v.toJsonText = none ↔ ∃ x, v = .float x ∧ x.isFinite = false) := by
  have hread : v.FloatFree → ofJsonText? v.toJsonText = some v.onClock := by
    intro hfloat
    have hfinite : ∀ x, v = .float x → x.isFinite = true := by
      rintro x rfl
      exact absurd hfloat id
    obtain ⟨w, hw, hclock⟩ := exists_ofJsonText? hdepth hfinite
    rw [hw, hclock hfloat]
  refine ⟨hread, fun hfloat => ?_, ?_, ?_⟩
  · rw [hread hfloat, Option.some_inj, onClock_eq_self_iff]
  · intro hnone
    by_contra hnot
    have hfinite : ∀ x, v = .float x → x.isFinite = true := by
      intro x hx
      by_contra hinfinite
      exact hnot ⟨x, hx, Bool.eq_false_iff.mpr hinfinite⟩
    obtain ⟨w, hw, -⟩ := exists_ofJsonText? hdepth hfinite
    rw [hw] at hnone
    cases hnone
  · rintro ⟨x, rfl, hx⟩
    exact ofJsonText?_of_not_isFinite hx

/-- A document with an empty key, a key of a line break, and the least and the largest integer. -/
def sampleDocument : Document where
  root := .object
    [("", .array [.number (.int (-0x8000000000000000) (by decide)),
        .number (.int 0xFFFFFFFFFFFFFFFF (by decide))]),
      ("\n", .object [("\"", .null)])]
  canonical :=
    ⟨List.pairwise_pair.mpr (by decide), ⟨trivial, trivial, trivial⟩,
      ⟨List.pairwise_singleton _ _, trivial, trivial⟩, trivial⟩

/-- Half way through the leap second at the end of 2016. -/
def sampleLeapSecond : Timestamp := ⟨⟨2016, 12, 31, by decide⟩, 23, 59, 59, 1500000000, by decide⟩

/-- The document holds an object that holds an array and an object, and the timestamp a leap second
that is shown as 60. -/
theorem ofJsonText?_toJsonText_sample :
    (Value.json sampleDocument).jsonDepth ≤ 126 ∧ (Value.json sampleDocument).FloatFree ∧
      ofJsonText? (Value.json sampleDocument).toJsonText = some (.json sampleDocument) ∧
      (Value.timestamp sampleLeapSecond).jsonDepth ≤ 126 ∧
      (Value.timestamp sampleLeapSecond).FloatFree ∧
      ofJsonText? (Value.timestamp sampleLeapSecond).toJsonText =
        some (.timestamp sampleLeapSecond) := by
  have hdepth : (Value.json sampleDocument).jsonDepth ≤ 126 := by decide
  have hfloat : (Value.json sampleDocument).FloatFree :=
    ⟨⟨trivial, trivial, trivial⟩, ⟨trivial, trivial⟩, trivial⟩
  have hdepth' : (Value.timestamp sampleLeapSecond).jsonDepth ≤ 126 := by decide
  refine ⟨hdepth, hfloat, (ofJsonText?_toJsonText _ hdepth).1 hfloat, hdepth', trivial, ?_⟩
  refine ((ofJsonText?_toJsonText _ hdepth').2.1 trivial).mpr ?_
  rintro t ⟨⟩
  exact .inr rfl

/-- Half way through a leap second that is shown as 1. -/
def insertedSecond : Timestamp := ⟨⟨2020, 1, 1, by decide⟩, 0, 0, 0, 1500000000, by decide⟩

/-- Half way through the ordinary second that is shown as 1. -/
def ordinarySecond : Timestamp := ⟨⟨2020, 1, 1, by decide⟩, 0, 0, 1, 500000000, by decide⟩

/-- A leap second that is not shown as 60 is exported like an ordinary second and read back as that
one, so it is lost. -/
theorem ofJsonText?_toJsonText_insertedSecond :
    (Value.timestamp insertedSecond).FloatFree ∧ (Value.timestamp insertedSecond).jsonDepth ≤ 126 ∧
      (Value.timestamp insertedSecond).toJsonText =
        "\x7b\"Timestamp\":\"2020-01-01T00:00:01.500Z\"\x7d" ∧
      ofJsonText? (Value.timestamp insertedSecond).toJsonText =
        some (.timestamp ordinarySecond) ∧
      (Value.timestamp ordinarySecond == .timestamp insertedSecond) = false := by
  refine ⟨trivial, by decide, by decide +kernel, ?_, by decide⟩
  obtain ⟨w, hw, hclock⟩ :=
    exists_ofJsonText? (v := .timestamp insertedSecond) (by decide) (by simp)
  rw [hw, hclock trivial]
  rfl

end SqlSelect.Value
