import SqlSelect.Proofs.Binding.Literals

/-!
# Templates

What a fragment writes is a text with holes, and the holes are filled with placeholders. The
template depends on the fragment and on the quoting of names, and on nothing else: neither on the
values nor on how many values were bound before (`Fragment.chars_eq_fill`).
-/

namespace SqlSelect

/-- A text with holes: `none` marks a hole. -/
abbrev Template := List (Option Char)

namespace Template

/-- The number of holes. -/
def holes (t : Template) : Nat := t.count none

/-- The text of a template whose holes take the fillings from left to right. A hole without a
filling stays empty. -/
def fill : List (List Char) → Template → List Char
  | _, [] => []
  | fillings, some c :: rest => c :: fill fillings rest
  | [], none :: rest => fill [] rest
  | filling :: fillings, none :: rest => filling ++ fill fillings rest

@[simp] theorem fill_nil (fillings : List (List Char)) : fill fillings [] = [] := by
  cases fillings <;> rfl

@[simp] theorem fill_some (fillings : List (List Char)) (c : Char) (t : Template) :
    fill fillings (some c :: t) = c :: fill fillings t := by
  cases fillings <;> rfl

/-- If the first part of a template takes its own fillings, the rest takes the others. -/
theorem fill_append {fillings : List (List Char)} {t : Template}
    (h : fillings.length = t.holes) (others : List (List Char)) (u : Template) :
    fill (fillings ++ others) (t ++ u) = fill fillings t ++ fill others u := by
  induction t generalizing fillings with
  | nil =>
    have hnil : fillings = [] := List.eq_nil_of_length_eq_zero h
    rw [hnil, fill_nil, List.nil_append, List.nil_append, List.nil_append]
  | cons c t ih =>
    cases c with
    | some c =>
      have h' : fillings.length = holes t := by simpa [holes] using h
      rw [List.cons_append, fill_some, fill_some, ih h', List.cons_append]
    | none =>
      -- the hole takes the first filling, which exists because the counts agree
      cases fillings with
      | nil => simp [holes] at h
      | cons filling fillings =>
        have h' : fillings.length = holes t := by simpa [holes] using h
        rw [List.cons_append, List.cons_append, fill, fill, ih h', List.append_assoc]

/-- Fixed text is filled with itself. -/
@[simp] theorem fill_map_some (fillings : List (List Char)) (text : List Char) :
    fill fillings (text.map some) = text := by
  induction text with
  | nil => exact fill_nil fillings
  | cons c text ih => rw [List.map_cons, fill_some, ih]

@[simp] theorem holes_map_some (text : List Char) : holes (text.map some) = 0 := by
  simp [holes, List.count_eq_zero]

theorem holes_append (t u : Template) : holes (t ++ u) = holes t + holes u :=
  List.count_append

end Template

open Template

/-- The template of a piece: a literal is a hole, all else is fixed text. -/
def Piece.template (q : Quoting) : Piece → Template
  | .literal _ => [none]
  | p => (p.chars q 0).map some

namespace Fragment

/-- The template of a fragment. -/
def template (q : Quoting) (f : Fragment) : Template :=
  f.flatMap (Piece.template q)

theorem template_cons (q : Quoting) (p : Piece) (f : Fragment) :
    template q (p :: f) = p.template q ++ f.template q :=
  List.flatMap_cons

/-- A fragment has one hole for each of its literals. -/
theorem holes_template (q : Quoting) (f : Fragment) :
    (f.template q).holes = f.literals.length := by
  induction f with
  | nil => rfl
  | cons p f ih =>
    have hpiece : holes (p.template q) = p.literal?.toList.length := by
      cases p with
      | literal v => rfl
      | _ => exact holes_map_some _
    rw [template_cons, holes_append, hpiece, ih, literals_cons, List.length_append]

/-- The text of a fragment is its template, filled with the placeholders of the numbers that follow
the number of values bound before. -/
theorem chars_eq_fill (q : Quoting) (bound : Nat) (f : Fragment) :
    f.chars q bound =
      fill ((List.range' (bound + 1) f.literals.length).map placeholder) (f.template q) := by
  induction f generalizing bound with
  | nil => rfl
  | cons p f ih =>
    have hpiece : p.chars q bound =
        fill ((List.range' (bound + 1) (literals [p]).length).map placeholder) (p.template q) := by
      cases p with
      | literal v => simp [Piece.chars, Piece.template, fill]
      | _ => exact (fill_map_some _ _).symm
    have hholes : ((List.range' (bound + 1) (literals [p]).length).map placeholder).length =
        (p.template q).holes := by
      simpa [template] using (holes_template q [p]).symm
    -- the numbers of the first piece are followed by those of the rest
    have hnumbers : List.range' (bound + 1) (literals (p :: f)).length =
        List.range' (bound + 1) (literals [p]).length ++
          List.range' (bound + (literals [p]).length + 1) (literals f).length := by
      rw [Nat.add_right_comm, List.range'_append_1, ← List.length_append, ← literals_append]
      rfl
    rw [chars_cons, ih, hpiece, template_cons, hnumbers, List.map_append, fill_append hholes]

end Fragment

end SqlSelect
