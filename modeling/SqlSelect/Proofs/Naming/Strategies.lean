import SqlSelect.Proofs.Lexing.Name
import SqlSelect.Proofs.Naming.Names
import SqlSelect.Proofs.Relabeling
import Mathlib.Data.String.Basic

/-!
# What a quoting strategy changes

Under any strategy a statement is written as if its names had been quoted beforehand and were then
written as they are (`Select.write_relabel_quote`). A strategy that quotes fewer names than another
leaves characters of the other's text out and keeps the rest in order (`Fragment.chars_sublist`).
What is left out at one name cannot be made up for at another, so the two texts are equal only if
the strategies agree on every name that is written (`Fragment.chars_eq_iff`).
-/

namespace SqlSelect

/-- Two lists that are each a part of another are together the others' whole only if each is. -/
theorem append_eq_iff_of_sublist {α : Type} {xs xs' ys ys' : List α} (hx : xs.Sublist xs')
    (hy : ys.Sublist ys') : xs ++ ys = xs' ++ ys' ↔ xs = xs' ∧ ys = ys' := by
  constructor
  · intro h
    have hlength := congrArg List.length h
    rw [List.length_append, List.length_append] at hlength
    have hxle := hx.length_le
    have hyle := hy.length_le
    exact ⟨hx.eq_of_length (by omega), hy.eq_of_length (by omega)⟩
  · rintro ⟨rfl, rfl⟩
    rfl

/-! ## One name -/

/-- A name stands between its quotes, character by character. -/
theorem sublist_flatMap_quotedChar (chars : List Char) :
    chars.Sublist (chars.flatMap quotedChar) := by
  induction chars with
  | nil => exact .slnil
  | cons c chars ih =>
    have hc : [c].Sublist (quotedChar c) := by
      rw [List.singleton_sublist, quotedChar]
      split <;> simp [*]
    exact hc.append ih

theorem toList_sublist_quotedName (name : String) : name.toList.Sublist (quotedName name) :=
  ((sublist_flatMap_quotedChar _).trans (List.sublist_append_left _ _)).cons '"'

theorem toList_ne_quotedName (name : String) : name.toList ≠ quotedName name := by
  intro h
  have hinside := (sublist_flatMap_quotedChar name.toList).length_le
  have hlength := congrArg List.length h
  rw [quotedName, List.length_cons, List.length_append] at hlength
  omega

/-- A name may be written bare exactly if it has the plain pattern and is not reserved. -/
theorem isBareName_iff {name : String} :
    isBareName name = true ↔ Lexing.MatchesPlain name.toList ∧ name ∉ reservedWords := by
  rw [isBareName, Bool.and_eq_true, Lexing.isPlainName_iff, Bool.not_eq_true', Bool.eq_false_iff,
    Ne, List.contains_iff_mem]

namespace Quoting

/-- Every name that the first strategy quotes is quoted by the second. -/
def Within (q q' : Quoting) : Prop := ∀ name, q.quotes name = true → q'.quotes name = true

theorem never_within (q : Quoting) : never.Within q := fun _ h => nomatch h

theorem within_always (q : Quoting) : q.Within always := fun _ _ => rfl

variable {q q' : Quoting}

theorem nameChars_sublist (h : q.Within q') (name : String) :
    (q.nameChars name).Sublist (q'.nameChars name) := by
  rw [nameChars, nameChars]
  by_cases hq : q.quotes name = true
  · rw [if_pos hq, if_pos (h name hq)]
  · rw [if_neg hq]
    split
    · exact toList_sublist_quotedName name
    · exact List.Sublist.refl _

/-- Two strategies write a name alike exactly if both quote it or neither does. -/
theorem nameChars_eq_iff (name : String) :
    q.nameChars name = q'.nameChars name ↔ q.quotes name = q'.quotes name := by
  have hne := toList_ne_quotedName name
  rw [nameChars, nameChars]
  cases q.quotes name <;> cases q'.quotes name <;> simp [hne, hne.symm]

end Quoting

/-! ## A fragment -/

namespace Fragment

/-- Quoting the names of a fragment beforehand and writing them as they are then is writing the
fragment under the strategy. -/
theorem chars_relabel_quote (q : Quoting) (bound : Nat) (f : Fragment) :
    (f.relabel { name := q.quote }).chars .never bound = f.chars q bound := by
  induction f generalizing bound with
  | nil => rfl
  | cons p f ih =>
    have hpiece : (p.relabel { name := q.quote }).chars .never bound = p.chars q bound := by
      cases p with
      | name word => exact Quoting.toList_quote q word
      | _ => rfl
    have hbound : literals [p.relabel { name := q.quote }] = literals [p] := by
      cases p <;> rfl
    rw [relabel, List.map_cons, chars_cons, chars_cons, hpiece, hbound]
    exact congrArg _ (ih _)

theorem literals_relabel_name (name : String → String) (f : Fragment) :
    (f.relabel { name := name }).literals = f.literals := by
  rw [literals, relabel, List.filterMap_map]
  refine List.filterMap_congr fun p _ => ?_
  cases p <;> rfl

variable {q q' : Quoting}

theorem chars_sublist_piece (h : q.Within q') (bound : Nat) (p : Piece) :
    (p.chars q bound).Sublist (p.chars q' bound) := by
  cases p with
  | name word => exact Quoting.nameChars_sublist h word
  | _ => exact List.Sublist.refl _

/-- The strategy that quotes fewer names leaves characters out and changes nothing else. -/
theorem chars_sublist (h : q.Within q') (bound : Nat) (f : Fragment) :
    (f.chars q bound).Sublist (f.chars q' bound) := by
  induction f generalizing bound with
  | nil => exact .slnil
  | cons p f ih =>
    rw [chars_cons, chars_cons]
    exact (chars_sublist_piece h bound p).append (ih _)

/-- The texts are equal exactly if the strategies agree on every name of the fragment. -/
theorem chars_eq_iff (h : q.Within q') (bound : Nat) (f : Fragment) :
    f.chars q bound = f.chars q' bound ↔ ∀ name ∈ f.names, q.quotes name = q'.quotes name := by
  induction f generalizing bound with
  | nil => exact iff_of_true rfl fun _ hname => nomatch hname
  | cons p f ih =>
    have hpiece : p.chars q bound = p.chars q' bound ↔
        ∀ name ∈ p.name?.toList, q.quotes name = q'.quotes name := by
      cases p with
      | name word =>
        rw [Piece.name?, Option.toList_some, List.forall_mem_singleton]
        exact Quoting.nameChars_eq_iff word
      | _ => exact iff_of_true rfl fun _ hname => nomatch hname
    rw [chars_cons, chars_cons,
      append_eq_iff_of_sublist (chars_sublist_piece h bound p) (chars_sublist h _ f), hpiece, ih,
      names_cons, List.forall_mem_append]

end Fragment

/-! ## A statement -/

namespace Select

/-- A strategy changes the names of a statement and nothing else. -/
theorem write_relabel_quote (s : Select) (q : Quoting) (binds : List Value) :
    (s.relabel { name := q.quote }).fragment.write .never binds = s.fragment.write q binds := by
  rw [fragment_relabel, Fragment.write, Fragment.write, Fragment.chars_relabel_quote,
    Fragment.literals_relabel_name]

section Texts

variable {q q' : Quoting} (h : q.Within q') (s : Select) (binds : List Value)
include h

theorem length_write_le :
    (s.fragment.write q binds).text.length ≤ (s.fragment.write q' binds).text.length := by
  rw [Fragment.write, Fragment.write, String.length_ofList, String.length_ofList]
  exact (Fragment.chars_sublist h _ _).length_le

theorem utf8ByteSize_write_le :
    (s.fragment.write q binds).text.utf8ByteSize ≤
      (s.fragment.write q' binds).text.utf8ByteSize := by
  rw [Fragment.write, Fragment.write, String.utf8ByteSize_ofList, String.utf8ByteSize_ofList]
  exact String.utf8Len_le_of_sublist (Fragment.chars_sublist h _ _)

theorem text_write_eq_iff :
    (s.fragment.write q binds).text = (s.fragment.write q' binds).text ↔
      ∀ name ∈ s.names, q.quotes name = q'.quotes name := by
  rw [← names_fragment, ← Fragment.chars_eq_iff h binds.length]
  exact String.ofList_inj

end Texts

/-- Quoting changes the names of a statement and nothing else, and it changes a name exactly if it
must. The values that are bound do not depend on the strategy, and a text under a strategy is the
bare text with these names quoted. Texts grow from no name quoted over those that need it to every
name. No name needs quotes exactly if every written name is a plain word that is not reserved; and
every name needs them exactly if none of the written names is. -/
theorem write_quoting (s : Select) (binds : List Value) :
    let bare := s.fragment.write .never binds
    let needed := s.fragment.write .whenNeeded binds
    let quoted := s.fragment.write .always binds
    (bare.binds = needed.binds ∧ needed.binds = quoted.binds) ∧
    (∀ q : Quoting,
      s.fragment.write q binds = (s.relabel { name := q.quote }).fragment.write .never binds) ∧
    (bare.text.length ≤ needed.text.length ∧ needed.text.length ≤ quoted.text.length) ∧
    (bare.text.utf8ByteSize ≤ needed.text.utf8ByteSize ∧
      needed.text.utf8ByteSize ≤ quoted.text.utf8ByteSize) ∧
    (bare.text = needed.text ↔
      ∀ name ∈ s.names, Lexing.MatchesPlain name.toList ∧ name ∉ reservedWords) ∧
    (needed.text = quoted.text ↔
      ∀ name ∈ s.names, ¬ (Lexing.MatchesPlain name.toList ∧ name ∉ reservedWords)) := by
  have hlow := Quoting.never_within .whenNeeded
  have hhigh := Quoting.within_always .whenNeeded
  refine ⟨⟨rfl, rfl⟩, fun q => (s.write_relabel_quote q binds).symm,
    ⟨length_write_le hlow s binds, length_write_le hhigh s binds⟩,
    ⟨utf8ByteSize_write_le hlow s binds, utf8ByteSize_write_le hhigh s binds⟩, ?_, ?_⟩
  · rw [text_write_eq_iff hlow]
    simp only [← isBareName_iff, Quoting.quotes, Bool.false_eq, Bool.not_eq_false']
  · rw [text_write_eq_iff hhigh]
    simp only [← isBareName_iff, Quoting.quotes, Bool.not_eq_true', Bool.not_eq_true]

end Select

end SqlSelect
