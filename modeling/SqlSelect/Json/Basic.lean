import SqlSelect.Json.Number

/-!
# JSON values and documents

In a value every string is text and every number has a value. A document is a value whose objects
list their members by increasing key, each key once (`Json.Canonical`); `Json.Members.ofList` brings
members into that form and keeps the last value of a repeated key.
-/

namespace SqlSelect

/-- A JSON value. -/
inductive Json where
  | null
  | bool (b : Bool)
  | number (n : Json.Number)
  | string (s : String)
  | array (items : List Json)
  | object (members : List (String × Json))

namespace Json

mutual

/-- Equality of values, numbers by `Number.beq`, members in order. -/
protected def beq : Json → Json → Bool
  | .null, .null => true
  | .bool a, .bool b => a == b
  | .number m, .number n => m == n
  | .string s, .string t => s == t
  | .array xs, .array ys => Json.beqItems xs ys
  | .object ms, .object ns => Json.beqMembers ms ns
  | _, _ => false

/-- Equality item by item. -/
protected def beqItems : List Json → List Json → Bool
  | [], [] => true
  | x :: xs, y :: ys => x.beq y && Json.beqItems xs ys
  | _, _ => false

/-- Equality member by member. -/
protected def beqMembers : List (String × Json) → List (String × Json) → Bool
  | [], [] => true
  | (k, x) :: ms, (l, y) :: ns => k == l && x.beq y && Json.beqMembers ms ns
  | _, _ => false

end

instance : BEq Json := ⟨Json.beq⟩

/-- Members of an object by increasing key, each key once. -/
def Members.Sorted (members : List (String × Json)) : Prop :=
  members.Pairwise (·.1 < ·.1)

/-- Put a member in its place among sorted ones; it takes over from one of the same key. -/
def Members.insert (key : String) (value : Json) : List (String × Json) → List (String × Json)
  | [] => [(key, value)]
  | (k, v) :: rest =>
    if key < k then (key, value) :: (k, v) :: rest
    else if key = k then (key, value) :: rest
    else (k, v) :: Members.insert key value rest

/-- Sort members by key; of a repeated key the last value stays. -/
def Members.ofList (members : List (String × Json)) : List (String × Json) :=
  members.foldl (fun sorted (key, value) => Members.insert key value sorted) []

mutual

/-- Every object in the value is sorted. -/
def Canonical : Json → Prop
  | .array items => CanonicalItems items
  | .object members => Members.Sorted members ∧ CanonicalMembers members
  | _ => True

/-- Every object in the items is sorted. -/
def CanonicalItems : List Json → Prop
  | [] => True
  | x :: xs => x.Canonical ∧ CanonicalItems xs

/-- Every object in the values of the members is sorted. -/
def CanonicalMembers : List (String × Json) → Prop
  | [] => True
  | (_, x) :: ms => x.Canonical ∧ CanonicalMembers ms

end

theorem canonicalItems_iff (items : List Json) :
    CanonicalItems items ↔ ∀ x ∈ items, x.Canonical := by
  induction items with
  | nil => simp [CanonicalItems]
  | cons x xs ih => simp [CanonicalItems, ih]

theorem canonicalMembers_iff (members : List (String × Json)) :
    CanonicalMembers members ↔ ∀ m ∈ members, m.2.Canonical := by
  induction members with
  | nil => simp [CanonicalMembers]
  | cons m ms ih => simp [CanonicalMembers, ih]

namespace Members

theorem mem_of_mem_insert {key : String} {value : Json} {members : List (String × Json)}
    {m : String × Json} (h : m ∈ insert key value members) : m = (key, value) ∨ m ∈ members := by
  induction members with
  | nil => simpa [insert] using h
  | cons head rest ih =>
    simp only [insert] at h
    split at h
    · simpa using h
    · split at h
      · rcases List.mem_cons.1 h with h | h
        · exact .inl h
        · exact .inr (List.mem_cons_of_mem _ h)
      · rcases List.mem_cons.1 h with h | h
        · exact .inr (h ▸ List.mem_cons_self)
        · exact (ih h).imp_right (List.mem_cons_of_mem _)

theorem sorted_insert (key : String) (value : Json) {members : List (String × Json)}
    (h : Sorted members) : Sorted (insert key value members) := by
  induction members with
  | nil => simp [insert, Sorted]
  | cons head rest ih =>
    obtain ⟨hhead, hrest⟩ := List.pairwise_cons.1 h
    simp only [insert]
    split
    · rename_i hlt
      refine List.pairwise_cons.2 ⟨?_, h⟩
      intro m hm
      rcases List.mem_cons.1 hm with rfl | hm
      · exact hlt
      · exact String.lt_trans hlt (hhead m hm)
    · split
      · rename_i heq
        exact List.pairwise_cons.2 ⟨fun m hm => heq ▸ hhead m hm, hrest⟩
      · rename_i hnlt hne
        refine List.pairwise_cons.2 ⟨?_, ih hrest⟩
        intro m hm
        rcases mem_of_mem_insert hm with rfl | hm
        · exact Std.lt_of_le_of_ne (Std.not_lt.1 hnlt) (Ne.symm hne)
        · exact hhead m hm

theorem sorted_ofList (members : List (String × Json)) : Sorted (ofList members) := by
  suffices h : ∀ acc, Sorted acc →
      Sorted (members.foldl (fun sorted (key, value) => insert key value sorted) acc) from
    h [] List.Pairwise.nil
  induction members with
  | nil => exact fun acc h => h
  | cons m ms ih => exact fun acc h => ih _ (sorted_insert m.1 m.2 h)

theorem mem_of_mem_ofList {members : List (String × Json)} {m : String × Json}
    (h : m ∈ ofList members) : m ∈ members := by
  suffices hacc : ∀ acc : List (String × Json),
      m ∈ members.foldl (fun sorted (key, value) => insert key value sorted) acc →
        m ∈ acc ∨ m ∈ members from (hacc [] h).resolve_left List.not_mem_nil
  clear h
  induction members with
  | nil => exact fun acc h => .inl h
  | cons head rest ih =>
    intro acc h
    rcases ih _ h with h | h
    · rcases mem_of_mem_insert h with rfl | h
      · exact .inr List.mem_cons_self
      · exact .inl h
    · exact .inr (List.mem_cons_of_mem _ h)

end Members

/-- A JSON value with sorted objects. -/
structure Document where
  root : Json
  canonical : root.Canonical

instance : BEq Document := ⟨fun a b => a.root == b.root⟩

end Json

end SqlSelect
