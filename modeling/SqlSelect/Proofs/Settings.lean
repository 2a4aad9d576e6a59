import SqlSelect.Proofs.Json.Text
import SqlSelect.Settings
import Mathlib.Data.List.Perm.Basic

/-!
# Decoding settings

An object is read member by member, with the strategy found so far. Only the members named
`quotingKey` matter in the end (`ofMembers?_eq`): the settings are a function of the values that
these have, and this function does not see their order (`ofValues?_perm`). So the other members can
be added, dropped and moved as one likes.
-/

namespace SqlSelect

open Json

/-! ## The names of strategies -/

namespace Quoting

/-- The ways to give a strategy in JSON: its name, or an object with its name as key and null. -/
def IsTree (q : Quoting) (t : Tree) : Prop :=
  ∃ units, stringOfUnits? units = some q.name ∧ (t = .string units ∨ t = .object [(units, .null)])

theorem ofName?_eq_some_iff (s : String) (q : Quoting) : ofName? s = some q ↔ s = q.name := by
  constructor
  · intro h
    unfold ofName? at h
    split at h <;> cases h <;> rfl
  · rintro rfl
    exact ofName?_name q

theorem bind_ofName?_eq_some_iff (s : Option String) (q : Quoting) :
    s.bind ofName? = some q ↔ s = some q.name := by
  simp only [Option.bind_eq_some_iff, ofName?_eq_some_iff, exists_eq_right]

theorem ofTree?_eq_some_iff (t : Tree) (q : Quoting) : ofTree? t = some q ↔ q.IsTree t := by
  constructor
  · intro h
    unfold ofTree? at h
    split at h
    · exact ⟨_, (bind_ofName?_eq_some_iff _ q).mp h, .inl rfl⟩
    · exact ⟨_, (bind_ofName?_eq_some_iff _ q).mp h, .inr rfl⟩
    · cases h
  · rintro ⟨units, hunits, rfl | rfl⟩
    · exact (bind_ofName?_eq_some_iff _ q).mpr hunits
    · exact (bind_ofName?_eq_some_iff _ q).mpr hunits

/-- The name of a strategy, written as a JSON string. -/
theorem isTree_tree (q : Quoting) : q.IsTree (Json.string q.name).tree :=
  ⟨units q.name, stringOfUnits?_units q.name, .inl rfl⟩

end Quoting

namespace Settings

/-! ## Members by name -/

/-- The members of an object with their names, if every key is text. -/
def named? : List (List StringUnit × Tree) → Option (List (String × Tree))
  | [] => some []
  | (units, t) :: rest => do
    let key ← stringOfUnits? units
    let members ← named? rest
    some ((key, t) :: members)

/-- The members of the object that a text spells, in their order. -/
def members? (text : String) : Option (List (String × Tree)) :=
  match Tree.parse? text with
  | some (.object members) => named? members
  | _ => none

theorem named?_memberTrees (members : List (String × Json)) :
    named? (memberTrees members) = some (members.map fun m => (m.1, m.2.tree)) := by
  induction members with
  | nil => rfl
  | cons m rest ih =>
    obtain ⟨key, x⟩ := m
    simp only [memberTrees, named?, stringOfUnits?_units, ih, Option.bind_eq_bind, Option.bind_some,
      List.map_cons]

/-- Any list of members has a text. -/
theorem members?_text (members : List (String × Json)) :
    members? (Json.object members).text = some (members.map fun m => (m.1, m.2.tree)) := by
  rw [members?, parse?_text]
  exact named?_memberTrees members

/-! ## The values of the setting -/

/-- The values that the members give to the setting. -/
def values (members : List (String × Tree)) : List Tree :=
  (members.filter (·.1 = quotingKey)).map Prod.snd

theorem values_cons_setting (t : Tree) (rest : List (String × Tree)) :
    values ((quotingKey, t) :: rest) = t :: values rest := by
  simp [values]

theorem values_cons_unknown {key : String} (h : key ≠ quotingKey) (t : Tree)
    (rest : List (String × Tree)) : values ((key, t) :: rest) = values rest := by
  simp [values, h]

theorem values_append (front back : List (String × Tree)) :
    values (front ++ back) = values front ++ values back := by
  rw [values, List.filter_append, List.map_append]
  rfl

theorem values_unknown {members : List (String × Tree)} (h : ∀ m ∈ members, m.1 ≠ quotingKey) :
    values members = [] := by
  rw [values, List.map_eq_nil_iff, List.filter_eq_nil_iff]
  exact fun m hm heq => h m hm (of_decide_eq_true heq)

theorem values_perm {members other : List (String × Tree)} (h : members.Perm other) :
    (values members).Perm (values other) :=
  (h.filter _).map _

theorem mem_values {members : List (String × Tree)} {t : Tree} (h : (quotingKey, t) ∈ members) :
    t ∈ values members :=
  List.mem_map.mpr ⟨_, List.mem_filter.mpr ⟨h, decide_eq_true rfl⟩, rfl⟩

theorem length_values (members : List (String × Tree)) :
    (values members).length = (members.map Prod.fst).count quotingKey := by
  rw [values, List.length_map, List.count, List.countP_map, List.countP_eq_length_filter]
  congr 1

/-! ## The loop over the members -/

/-- Settings from the values that the setting is given, behind the strategy found before. -/
def ofValues? (found : Option Quoting) : List Tree → Option Settings
  | [] => some (match found with | some q => ⟨q⟩ | none => standard)
  | t :: rest =>
    match found with
    | some _ => none
    | none => (Quoting.ofTree? t).bind fun q => ofValues? (some q) rest

/-- The loop sees the names of the other members, and not more of them. -/
theorem ofMembers?_eq (found : Option Quoting) (members : List (List StringUnit × Tree)) :
    ofMembers? found members = (named? members).bind fun ms => ofValues? found (values ms) := by
  induction members generalizing found with
  | nil => rfl
  | cons m rest ih =>
    obtain ⟨units, t⟩ := m
    simp only [ofMembers?, named?, Option.bind_eq_bind, Option.bind_assoc, Option.bind_some]
    refine congrArg _ (funext fun key => ?_)
    by_cases hkey : key = quotingKey
    · rw [if_pos hkey, hkey]
      simp only [values_cons_setting]
      cases found with
      | some q => exact (Option.bind_fun_none _).symm
      | none =>
        -- the loop reads the value first, the right side names all the members first
        simp only [ih, ofValues?]
        exact Option.bind_comm _ _
    · rw [if_neg hkey, ih]
      simp only [values_cons_unknown hkey]

/-- An object is decoded by the values that it gives to the setting. -/
theorem ofJsonText?_eq {text : String} {members : List (String × Tree)}
    (h : members? text = some members) : ofJsonText? text = ofValues? none (values members) := by
  rw [members?] at h
  split at h
  · rename_i hparse
    rw [ofJsonText?, hparse, Option.bind_some, ofTree?, ofMembers?_eq, h, Option.bind_some]
  · cases h

/-- A key that is no text is refused, wherever it stands. -/
theorem ofJsonText?_unnamed {text : String} {members : List (List StringUnit × Tree)}
    (hparse : Tree.parse? text = some (.object members)) (h : named? members = none) :
    ofJsonText? text = none := by
  rw [ofJsonText?, hparse, Option.bind_some, ofTree?, ofMembers?_eq, h, Option.bind_none]

theorem ofValues?_singleton_iff (t : Tree) (s : Settings) :
    ofValues? none [t] = some s ↔ s.quoting.IsTree t := by
  rw [← Quoting.ofTree?_eq_some_iff, ofValues?, Option.bind_eq_some_iff]
  constructor
  · rintro ⟨q, hq, hs⟩
    cases hs
    exact hq
  · exact fun h => ⟨s.quoting, h, rfl⟩

theorem ofValues?_two (t u : Tree) (rest : List Tree) : ofValues? none (t :: u :: rest) = none :=
  Option.bind_fun_none _

/-- One value can only be first, and more of them are refused in any order. -/
theorem ofValues?_perm {ts us : List Tree} (h : ts.Perm us) :
    ofValues? none ts = ofValues? none us := by
  match ts with
  | [] => rw [h.nil_eq]
  | [t] => rw [List.singleton_perm.mp h]
  | t :: u :: rest =>
    match us, h.length_eq with
    | v :: w :: others, _ => rw [ofValues?_two, ofValues?_two]

/-- Members that are not the setting change no values. -/
theorem perm_values_of_unknown {members other added dropped : List (String × Tree)}
    (hadded : ∀ m ∈ added, m.1 ≠ quotingKey) (hdropped : ∀ m ∈ dropped, m.1 ≠ quotingKey)
    (h : (other ++ dropped).Perm (members ++ added)) : (values other).Perm (values members) := by
  have hvalues := values_perm h
  rwa [values_append, values_append, values_unknown hadded, values_unknown hdropped,
    List.append_nil, List.append_nil] at hvalues

theorem members?_toJsonText (s : Settings) :
    members? s.toJsonText = some [(quotingKey, (Json.string s.quoting.name).tree)] :=
  members?_text _

/-- An object without the setting has the standard settings, one that says it once has the strategy
that the value names, in exactly the ways of `Quoting.IsTree`, and one that says it twice is
refused. So nothing changes when other members are added, dropped or moved. The text of settings,
with whatever other members in it and in whatever order, stands for these settings. -/
theorem ofJsonText?_members :
    (∀ (text : String) (members : List (String × Tree)), members? text = some members →
      ((members.map Prod.fst).count quotingKey = 0 → ofJsonText? text = some standard) ∧
      ((members.map Prod.fst).count quotingKey = 1 → ∀ t, (quotingKey, t) ∈ members →
        ∀ s, ofJsonText? text = some s ↔ s.quoting.IsTree t) ∧
      (2 ≤ (members.map Prod.fst).count quotingKey → ofJsonText? text = none)) ∧
    (∀ (text other : String) (members members' added dropped : List (String × Tree)),
      members? text = some members → members? other = some members' →
      (∀ m ∈ added, m.1 ≠ quotingKey) → (∀ m ∈ dropped, m.1 ≠ quotingKey) →
      (members' ++ dropped).Perm (members ++ added) → ofJsonText? other = ofJsonText? text) ∧
    (∀ s : Settings, ∃ t, members? s.toJsonText = some [(quotingKey, t)] ∧
      ∀ (text : String) (members added : List (String × Tree)), members? text = some members →
        (∀ m ∈ added, m.1 ≠ quotingKey) → members.Perm ((quotingKey, t) :: added) →
        ofJsonText? text = some s) := by
  refine ⟨fun text members hmembers => ?_, ?_, fun s => ?_⟩
  · simp only [← length_values, ofJsonText?_eq hmembers]
    refine ⟨fun hnone => ?_, fun hone t ht s => ?_, fun htwo => ?_⟩
    · rw [List.length_eq_zero_iff.mp hnone]
      rfl
    · obtain ⟨u, hu⟩ := List.length_eq_one_iff.mp hone
      have htu : t = u := List.mem_singleton.mp (hu ▸ mem_values ht)
      rw [hu, htu]
      exact ofValues?_singleton_iff u s
    · match values members, htwo with
      | t :: u :: rest, _ => exact ofValues?_two t u rest
  · intro text other members members' added dropped hmembers hmembers' hadded hdropped hperm
    rw [ofJsonText?_eq hmembers, ofJsonText?_eq hmembers']
    exact ofValues?_perm (perm_values_of_unknown hadded hdropped hperm)
  · refine ⟨_, members?_toJsonText s, fun text members added hmembers hadded hperm => ?_⟩
    have hvalues : (values members).Perm [(Json.string s.quoting.name).tree] := by
      rw [← values_unknown hadded, ← values_cons_setting]
      exact values_perm hperm
    rw [ofJsonText?_eq hmembers, ofValues?_perm hvalues]
    exact (ofValues?_singleton_iff _ s).mpr s.quoting.isTree_tree

/-- No strategy, one and two; two objects with different other members; settings behind one. -/
theorem ofJsonText?_members_never :
    ofJsonText? (Json.object [("x", .null)]).text = some standard ∧
    ofJsonText? (Json.object [("x", .null), (quotingKey, .string "Never")]).text = some ⟨.never⟩ ∧
    ofJsonText? (Json.object [(quotingKey, .null), ("x", .null), (quotingKey, .null)]).text = none ∧
    ofJsonText? (Json.object [("y", .null), (quotingKey, .string "Never")]).text =
      ofJsonText? (Json.object [("x", .null), (quotingKey, .string "Never")]).text ∧
    ofJsonText? (Json.object [("x", .null), (quotingKey, .string "Always")]).text =
      some ⟨.always⟩ := by
  obtain ⟨hcount, hperm, htext⟩ := ofJsonText?_members
  refine ⟨(hcount _ _ (members?_text _)).1 (by decide),
    ((hcount _ _ (members?_text _)).2.1 (by decide) (Json.string "Never").tree
      (List.mem_cons_of_mem _ List.mem_cons_self) ⟨.never⟩).mpr (Quoting.isTree_tree .never),
    (hcount _ _ (members?_text _)).2.2 (by decide),
    hperm _ _ _ _ [("y", .null)] [("x", .null)] (members?_text _) (members?_text _)
      (by decide) (by decide) ?_, ?_⟩
  · exact List.reverse_perm [_, _, _]
  · obtain ⟨t, ht, hadd⟩ := htext ⟨.always⟩
    rw [members?_toJsonText] at ht
    cases ht
    exact hadd _ _ [("x", .null)] (members?_text _) (by decide) (List.Perm.swap _ _ _)

end Settings

end SqlSelect
