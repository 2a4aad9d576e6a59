import SqlSelect.Proofs.Binding.Places

/-!
# Text does not depend on literals

Two statements that differ in their literals only are written with the same text, and bind at each
place the literal that they have there. No branch of the writer looks at a value.
-/

namespace SqlSelect

/-- The relabeling that makes every literal null and keeps every name. -/
def Relabeling.eraseLiterals : Relabeling where
  literal _ := .null

/-- A statement with null for every literal. -/
def Select.eraseLiterals (s : Select) : Select := s.relabel .eraseLiterals

/-- A literal is written as its number, so a change of literals is not seen in the text. -/
theorem Fragment.chars_relabel {r : Relabeling} (hname : r.name = id) (q : Quoting) (bound : Nat)
    (f : Fragment) : (f.relabel r).chars q bound = f.chars q bound := by
  induction f generalizing bound with
  | nil => rfl
  | cons p f ih =>
    have hpiece : (p.relabel r).chars q bound = p.chars q bound := by
      cases p with
      | name word => rw [Piece.relabel, hname, id]
      | _ => rfl
    have hbound : (literals [p.relabel r]).length = (literals [p]).length := by
      cases p <;> rfl
    rw [relabel, List.map_cons, chars_cons, chars_cons, hpiece, hbound]
    exact congrArg _ (ih _)

namespace Select

theorem chars_fragment_of_eraseLiterals_eq {s t : Select}
    (h : s.eraseLiterals = t.eraseLiterals) (q : Quoting) (bound : Nat) :
    s.fragment.chars q bound = t.fragment.chars q bound :=
  calc s.fragment.chars q bound
    _ = s.eraseLiterals.fragment.chars q bound := by
      rw [eraseLiterals, fragment_relabel, Fragment.chars_relabel rfl]
    _ = t.fragment.chars q bound := by
      rw [h, eraseLiterals, fragment_relabel, Fragment.chars_relabel rfl]

theorem places_eq_of_eraseLiterals_eq {s t : Select}
    (h : s.eraseLiterals = t.eraseLiterals) : s.places = t.places := by
  rw [← places_relabel .eraseLiterals s, ← places_relabel .eraseLiterals t]
  exact congrArg places h

/-- Statements that differ in their literals only, written behind equally many values, have the same
text. Each binds the literals that stand at the same places of it, from left to right. -/
theorem write_of_eraseLiterals_eq {s t : Select} (h : s.eraseLiterals = t.eraseLiterals)
    (q : Quoting) {binds others : List Value} (hbound : binds.length = others.length) :
    (s.fragment.write q binds).text = (t.fragment.write q others).text ∧
    ∃ (places : List Place) (values values' : List Value),
      places.Pairwise (· < ·) ∧
      values.length = values'.length ∧
      (s.fragment.write q binds).binds = binds ++ values ∧
      values.map some = places.map s.literalAt? ∧
      (t.fragment.write q others).binds = others ++ values' ∧
      values'.map some = places.map t.literalAt? := by
  have hplaces := places_eq_of_eraseLiterals_eq h
  have hvalues := s.map_literalAt?_places
  have hvalues' := t.map_literalAt?_places
  rw [← hplaces] at hvalues'
  have hlength : s.literals.length = t.literals.length := by
    have hs := congrArg List.length hvalues
    have ht := congrArg List.length hvalues'
    rw [List.length_map, List.length_map] at hs ht
    exact hs.symm.trans ht
  refine ⟨?_, s.places, s.literals, t.literals, s.sorted_places, hlength, ?_, hvalues.symm, ?_,
    hvalues'.symm⟩
  · rw [Fragment.write, Fragment.write, hbound, chars_fragment_of_eraseLiterals_eq h]
  · rw [Fragment.write, literals_fragment]
  · rw [Fragment.write, literals_fragment]

/-- One text for two statements, behind one value each: what is looked up in an empty list is not
written, and no literal is seen in the text. -/
theorem write_of_eraseLiterals_eq_null :
    let s : Select := {
      projections := [.expr (.call "coalesce" [.literal .null, .column ⟨none, "a"⟩]) none]
      condition := some (.all [.inList (.literal (.int 1)) [] false,
        .inList (.column ⟨none, "a"⟩) [.literal (.int 1), .literal (.int 1)] true]) }
    let t : Select := {
      projections := [.expr (.call "coalesce" [.literal (.text "$9"), .column ⟨none, "a"⟩]) none]
      condition := some (.all [.inList (.literal .null) [] false,
        .inList (.column ⟨none, "a"⟩) [.literal .null, .literal (.bool true)] true]) }
    (s.fragment.write .never [.int 5]).text =
        "SELECT coalesce($2, a) WHERE FALSE AND a NOT IN ($3, $4)" ∧
      (t.fragment.write .never [.null]).text =
        "SELECT coalesce($2, a) WHERE FALSE AND a NOT IN ($3, $4)" ∧
      (s.fragment.write .never [.int 5]).binds = [.int 5, .null, .int 1, .int 1] ∧
      (t.fragment.write .never [.null]).binds = [.null, .text "$9", .null, .bool true] ∧
      ∃ places : List Place, places.Pairwise (· < ·) ∧
        places.map s.literalAt? = [some .null, some (.int 1), some (.int 1)] ∧
        places.map t.literalAt? = [some (.text "$9"), some .null, some (.bool true)] := by
  intro s t
  have herased : s.eraseLiterals = t.eraseLiterals := rfl
  have hbound : [Value.int 5].length = [Value.null].length := rfl
  have htext : (s.fragment.write .never [.int 5]).text =
      "SELECT coalesce($2, a) WHERE FALSE AND a NOT IN ($3, $4)" := by decide +kernel
  obtain ⟨hsame, places, values, values', hsorted, -, hbinds, hvalues, hbinds', hvalues'⟩ :=
    write_of_eraseLiterals_eq herased .never hbound
  obtain rfl : values = [.null, .int 1, .int 1] := (List.append_cancel_left hbinds).symm
  obtain rfl : values' = [.text "$9", .null, .bool true] := (List.append_cancel_left hbinds').symm
  exact ⟨htext, hsame ▸ htext, hbinds, hbinds', places, hsorted, hvalues.symm, hvalues'.symm⟩

end Select

end SqlSelect
