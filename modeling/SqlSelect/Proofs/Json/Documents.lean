import SqlSelect.Json.Document
import SqlSelect.Proofs.Json.Text

/-!
# Reading documents back

The tree of a value stands for a value again, as long as it is not nested deeper than allowed. Only
a floating-point number may be read as another one; the rest comes back as it was, because the
objects of a document are sorted and sorting their members again changes nothing.
-/

namespace SqlSelect.Json

namespace Members

/-- A member whose key is the largest goes to the end. -/
theorem insert_of_forall_lt {key : String} {value : Json} {members : List (String × Json)}
    (h : ∀ m ∈ members, m.1 < key) : insert key value members = members ++ [(key, value)] := by
  induction members with
  | nil => rfl
  | cons m rest ih =>
    have hlt : m.1 < key := h m List.mem_cons_self
    have hnot : ¬ key < m.1 := fun hgt => String.lt_irrefl _ (String.lt_trans hlt hgt)
    have hne : key ≠ m.1 := fun heq => String.lt_irrefl _ (heq ▸ hlt)
    rw [insert, if_neg hnot, if_neg hne, ih fun m' hm' => h m' (List.mem_cons_of_mem _ hm'),
      List.cons_append]

/-- Sorted members are left as they are. -/
theorem ofList_of_sorted {members : List (String × Json)} (h : Sorted members) :
    ofList members = members := by
  suffices hfold : ∀ done : List (String × Json), Sorted (done ++ members) →
      members.foldl (fun sorted m => insert m.1 m.2 sorted) done = done ++ members from hfold [] h
  clear h
  induction members with
  | nil => exact fun done _ => (List.append_nil done).symm
  | cons m rest ih =>
    intro done hsorted
    obtain ⟨key, value⟩ := m
    have hlast : insert key value done = done ++ [(key, value)] :=
      insert_of_forall_lt fun m hm =>
        (List.pairwise_append.mp hsorted).2.2 m hm _ List.mem_cons_self
    rw [List.append_cons] at hsorted ⊢
    rw [List.foldl_cons, hlast]
    exact ih _ hsorted

end Members

/-! ## Depth and floats -/

mutual

/-- The number of containers inside each other. -/
def depth : Json → Nat
  | .array items => itemsDepth items + 1
  | .object members => membersDepth members + 1
  | _ => 0

/-- The largest depth of some items. -/
def itemsDepth : List Json → Nat
  | [] => 0
  | x :: rest => max x.depth (itemsDepth rest)

/-- The largest depth of the values of some members. -/
def membersDepth : List (String × Json) → Nat
  | [] => 0
  | (_, x) :: rest => max x.depth (membersDepth rest)

end

mutual

/-- No number in the value is a float. -/
def FloatFree : Json → Prop
  | .number (.float _ _) => False
  | .array items => ItemsFloatFree items
  | .object members => MembersFloatFree members
  | _ => True

/-- No number in the items is a float. -/
def ItemsFloatFree : List Json → Prop
  | [] => True
  | x :: rest => x.FloatFree ∧ ItemsFloatFree rest

/-- No number in the values of the members is a float. -/
def MembersFloatFree : List (String × Json) → Prop
  | [] => True
  | (_, x) :: rest => x.FloatFree ∧ MembersFloatFree rest

end

/-! ## From tree to value -/

mutual

/-- The tree of a value stands for a value, if as many containers are allowed inside each other as
it has; for the same value, if it is sorted and has no floats. -/
theorem ofTree?_tree (x : Json) {limit : Nat} (hdepth : x.depth ≤ limit) :
    ∃ y, ofTree? limit x.tree = some y ∧ (x.Canonical → x.FloatFree → y = x) := by
  match x with
  | .null => exact ⟨_, rfl, fun _ _ => rfl⟩
  | .bool b => exact ⟨_, rfl, fun _ _ => rfl⟩
  | .number (.int n range) =>
    refine ⟨_, ?_, fun _ _ => rfl⟩
    show (Number.ofNumeral? (.ofInt n)).map Json.number = _
    rw [Number.ofNumeral?_ofInt range, Option.map_some]
  | .number (.float f finite) =>
    obtain ⟨m, hm⟩ := Number.ofNumeral?_numeral (.float f finite)
    refine ⟨.number m, ?_, fun _ hfloat => absurd hfloat id⟩
    show (Number.ofNumeral? (Number.float f finite).numeral).map Json.number = _
    rw [hm, Option.map_some]
  | .string s =>
    refine ⟨_, ?_, fun _ _ => rfl⟩
    show (stringOfUnits? (units s)).map Json.string = _
    rw [stringOfUnits?_units, Option.map_some]
  | .array items =>
    obtain ⟨inner, rfl⟩ := Nat.exists_eq_succ_of_ne_zero (Nat.ne_zero_of_lt hdepth)
    obtain ⟨ys, hys, hsame⟩ := ofTrees?_itemTrees items (Nat.le_of_succ_le_succ hdepth)
    refine ⟨.array ys, ?_, fun hcanonical hfloat => congrArg Json.array (hsame hcanonical hfloat)⟩
    show (ofTrees? inner (itemTrees items)).map Json.array = _
    rw [hys, Option.map_some]
  | .object members =>
    obtain ⟨inner, rfl⟩ := Nat.exists_eq_succ_of_ne_zero (Nat.ne_zero_of_lt hdepth)
    obtain ⟨ns, hns, hsame⟩ := ofMembers?_memberTrees members (Nat.le_of_succ_le_succ hdepth)
    refine ⟨.object (Members.ofList ns), ?_, ?_⟩
    · show (ofMembers? inner (memberTrees members)).map
        (fun ms => Json.object (Members.ofList ms)) = _
      rw [hns, Option.map_some]
    · rintro ⟨hsorted, hmembers⟩ hfloat
      rw [hsame hmembers hfloat, Members.ofList_of_sorted hsorted]

theorem ofTrees?_itemTrees (items : List Json) {limit : Nat} (hdepth : itemsDepth items ≤ limit) :
    ∃ ys, ofTrees? limit (itemTrees items) = some ys ∧
      (CanonicalItems items → ItemsFloatFree items → ys = items) := by
  match items with
  | [] => exact ⟨_, rfl, fun _ _ => rfl⟩
  | x :: rest =>
    obtain ⟨hx, hrest⟩ := Nat.max_le.mp hdepth
    obtain ⟨y, hy, hfirst⟩ := ofTree?_tree x hx
    obtain ⟨ys, hys, hothers⟩ := ofTrees?_itemTrees rest hrest
    refine ⟨y :: ys, ?_, ?_⟩
    · rw [itemTrees, ofTrees?, hy, hys]
      rfl
    · rintro ⟨hcanonical, hcanonicals⟩ ⟨hfloat, hfloats⟩
      rw [hfirst hcanonical hfloat, hothers hcanonicals hfloats]

theorem ofMembers?_memberTrees (members : List (String × Json)) {limit : Nat}
    (hdepth : membersDepth members ≤ limit) :
    ∃ ns, ofMembers? limit (memberTrees members) = some ns ∧
      (CanonicalMembers members → MembersFloatFree members → ns = members) := by
  match members with
  | [] => exact ⟨_, rfl, fun _ _ => rfl⟩
  | (key, x) :: rest =>
    obtain ⟨hx, hrest⟩ := Nat.max_le.mp hdepth
    obtain ⟨y, hy, hfirst⟩ := ofTree?_tree x hx
    obtain ⟨ns, hns, hothers⟩ := ofMembers?_memberTrees rest hrest
    refine ⟨(key, y) :: ns, ?_, ?_⟩
    · rw [memberTrees, ofMembers?, stringOfUnits?_units, hy, hns]
      rfl
    · rintro ⟨hcanonical, hcanonicals⟩ ⟨hfloat, hfloats⟩
      rw [hfirst hcanonical hfloat, hothers hcanonicals hfloats]

end

/-- A document that is not nested too deep is read as a document, and as itself if it has no floats.
-/
theorem Document.ofTree?_tree (d : Document) {limit : Nat} (hdepth : d.root.depth ≤ limit) :
    ∃ e, ofTree? limit d.root.tree = some e ∧ (d.root.FloatFree → e = d) := by
  obtain ⟨y, hy, hsame⟩ := Json.ofTree?_tree d.root hdepth
  refine ⟨⟨y, canonical_ofTree? hy⟩, ?_, ?_⟩
  · unfold ofTree?
    split
    · rename_i x hx
      obtain rfl : x = y := Option.some.inj (hx.symm.trans hy)
      rfl
    · rename_i hnone
      rw [hy] at hnone
      cases hnone
  · intro hfloat
    obtain rfl := hsame d.canonical hfloat
    rfl

end SqlSelect.Json
