import SqlSelect.Uuid
import Mathlib.Algebra.Ring.Nat
import Mathlib.Data.List.Basic

/-!
# Reading identifiers back

The written form of an identifier is in groups, which are put together again by their sizes. It is
not taken for one of the other forms: it has no brace or name space in front, and with the hyphens
it is too long for digits alone.
-/

namespace SqlSelect.Uuid

/-! ## Groups -/

theorem group_cons (n m : Nat) (sizes : List Nat) (text : List Char) :
    group (n :: m :: sizes) text = text.take n ++ '-' :: group (m :: sizes) (text.drop n) := by
  rw [group]
  exact List.cons_ne_nil m sizes

/-- Behind the first group the text has the size of the other groups. -/
theorem length_drop_of_sum {n : Nat} {sizes : List Nat} {text : List Char}
    (h : text.length = (n :: sizes).sum) : (text.drop n).length = sizes.sum := by
  rw [List.sum_cons] at h
  rw [List.length_drop]
  omega

/-- Groups that use up a text give it back. -/
theorem ungroup?_group {sizes : List Nat} (hsizes : sizes ≠ []) {text : List Char}
    (h : text.length = sizes.sum) : ungroup? sizes (group sizes text) = some text := by
  induction sizes generalizing text with
  | nil => exact absurd rfl hsizes
  | cons n rest ih =>
    cases rest with
    | nil =>
      have hlength : text.length = n := h
      rw [group, List.take_of_length_le (Nat.le_of_eq hlength), ungroup?, if_pos hlength]
    | cons m sizes =>
      have hsum : text.length = n + (m :: sizes).sum := h
      have hfront : (text.take n).length = n := by
        rw [List.length_take]
        omega
      have hrest := ih (List.cons_ne_nil m sizes) (length_drop_of_sum h)
      rw [group_cons, ungroup?, List.drop_left' hfront, List.take_left' hfront]
      · show (ungroup? _ (group (m :: sizes) (text.drop n))).map _ = _
        rw [hrest, Option.map_some, List.take_append_drop]
      · exact List.cons_ne_nil m sizes

/-- A hyphen stands between any two groups. -/
theorem length_group {sizes : List Nat} (hsizes : sizes ≠ []) {text : List Char}
    (h : text.length = sizes.sum) : (group sizes text).length + 1 = text.length + sizes.length := by
  induction sizes generalizing text with
  | nil => exact absurd rfl hsizes
  | cons n rest ih =>
    cases rest with
    | nil =>
      have hlength : text.length = n := h
      rw [group, List.take_of_length_le (Nat.le_of_eq hlength)]
      rfl
    | cons m sizes =>
      have hsum : text.length = n + (m :: sizes).sum := h
      have hrest := ih (List.cons_ne_nil m sizes) (length_drop_of_sum h)
      rw [List.length_drop] at hrest
      rw [group_cons, List.length_append, List.length_take, List.length_cons, List.length_cons]
      omega

/-! ## Digits -/

/-- Two digits are read for each octet. -/
theorem length_of_readOctets? {digits : List Char} {octets : List UInt8}
    (h : readOctets? digits = some octets) : digits.length = 2 * octets.length := by
  induction digits using readOctets?.induct generalizing octets with
  | case1 =>
    cases h
    rfl
  | case2 => cases h
  | case3 a b rest ih =>
    simp only [readOctets?, Option.bind_eq_bind, Option.bind_eq_some_iff, Option.some.injEq] at h
    obtain ⟨_, -, _, -, os, hos, rfl⟩ := h
    have hrest := ih hos
    simp only [List.length_cons]
    omega

theorem ofHex?_hexChars (u : Uuid) : ofHex? (hexChars u.octets) = some u := by
  simp only [ofHex?, readOctets?_hexChars, Option.bind_eq_bind, Option.bind_some]
  exact dif_pos u.size

/-- Only 32 digits make an identifier. -/
theorem ofHex?_eq_none {digits : List Char} (h : digits.length ≠ 32) : ofHex? digits = none := by
  rw [ofHex?]
  cases hread : readOctets? digits with
  | none => rfl
  | some octets =>
    have hlength := length_of_readOctets? hread
    exact dif_neg (by omega)

/-- The written form starts with a hexadecimal digit. -/
theorem chars_eq_cons (u : Uuid) : ∃ n rest, u.chars = Text.hexDigit n :: rest ∧ n < 16 := by
  have hpos : u.octets ≠ [] := by
    intro hnil
    have hsize := u.size
    rw [hnil] at hsize
    cases hsize
  obtain ⟨octet, octets, hcons⟩ := List.exists_cons_of_ne_nil hpos
  have hlt : octet.toNat < 256 := octet.toNat_lt
  refine ⟨octet.toNat / 16, ?_⟩
  rw [chars, hcons]
  exact ⟨_, rfl, by omega⟩

/-! ## The written form -/

/-- An identifier is what its written form stands for. -/
theorem parse?_chars (u : Uuid) : parse? (String.ofList u.chars) = some u := by
  have hlength : (hexChars u.octets).length = groupSizes.sum := by
    rw [length_hexChars, u.size]
    rfl
  have hsizes : groupSizes ≠ [] := List.cons_ne_nil _ _
  have hgrouped : ofGrouped? u.chars = some u := by
    rw [ofGrouped?, chars, ungroup?_group hsizes hlength, Option.bind_some, ofHex?_hexChars]
  have hhex : ofHex? u.chars = none := by
    have hlong := length_group hsizes hlength
    rw [hlength] at hlong
    apply ofHex?_eq_none
    intro hshort
    rw [chars] at hshort
    rw [hshort] at hlong
    exact absurd hlong (by decide)
  obtain ⟨n, rest, hcons, hn⟩ := u.chars_eq_cons
  have hdigit : ∀ m : Fin 16, Text.hexDigit m ≠ '{' ∧ (Text.hexDigit m).toLower ≠ 'u' := by decide
  obtain ⟨hbrace, hname⟩ := hdigit ⟨n, hn⟩
  have hnameSpace : ¬ (u.chars.take nameSpace.length).map Char.toLower = nameSpace := by
    rw [hcons]
    exact fun heq => hname (List.cons.inj heq).1
  rw [parse?, String.toList_ofList, ofChars?, if_neg hnameSpace, hhex, hgrouped]
  · rfl
  · intro tail heq
    rw [hcons] at heq
    exact hbrace (List.cons.inj heq).1

end SqlSelect.Uuid
