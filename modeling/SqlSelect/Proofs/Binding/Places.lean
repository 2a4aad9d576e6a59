import SqlSelect.Proofs.Relabeling

/-!
# The places of literals

A place leads down a query from part to part, by the number of the next part at each step. Every
literal that a statement binds stands at a place, and the places of a statement, in the order in
which their literals are bound, go from left to right.
-/

namespace SqlSelect

/-- A way down a query: at each step the number of the part below. -/
abbrev Place := List Nat

namespace Place

/-- The places in numbered parts: each place is led to by the number of its part. -/
def numbered (first : Nat) : List (List Place) → List Place
  | [] => []
  | places :: rest => places.map (first :: ·) ++ numbered (first + 1) rest

/-- What is found in numbered parts is what is found in the parts one by one. -/
theorem map_numbered {α : Type} {places : α → List Place} {literals : α → List Value}
    {at? : Place → α → Option Value} {lookup : Place → Option Value} {first : Nat} {parts : List α}
    (hlookup : ∀ i p, lookup ((first + i) :: p) = parts[i]?.bind (at? p))
    (h : ∀ x ∈ parts, (places x).map (at? · x) = (literals x).map some) :
    (numbered first (parts.map places)).map lookup = (parts.flatMap literals).map some := by
  induction parts generalizing first with
  | nil => rfl
  | cons x parts ih =>
    have hfirst : ((places x).map (first :: ·)).map lookup = (literals x).map some := by
      rw [List.map_map, ← h x List.mem_cons_self]
      exact List.map_congr_left fun p _ => hlookup 0 p
    have hrest : (numbered (first + 1) (parts.map places)).map lookup =
        (parts.flatMap literals).map some := by
      refine ih (fun i p => ?_) fun y hy => h y (List.mem_cons_of_mem x hy)
      rw [Nat.add_right_comm, Nat.add_assoc]
      exact hlookup (i + 1) p
    rw [List.map_cons, numbered, List.map_append, hfirst, hrest, List.flatMap_cons, List.map_append]

/-- A place in numbered parts starts with the number of a part. -/
theorem exists_cons_of_mem_numbered {first : Nat} {parts : List (List Place)} {p : Place}
    (h : p ∈ numbered first parts) : ∃ i rest, p = i :: rest ∧ first ≤ i := by
  induction parts generalizing first with
  | nil => cases h
  | cons places parts ih =>
    rcases List.mem_append.mp h with h | h
    · obtain ⟨rest, -, rfl⟩ := List.mem_map.mp h
      exact ⟨first, rest, rfl, Nat.le_refl first⟩
    · obtain ⟨i, rest, rfl, hi⟩ := ih h
      exact ⟨i, rest, rfl, Nat.le_of_succ_le hi⟩

/-- If the places of each part go from left to right, those of the numbered parts do. -/
theorem sorted_numbered {first : Nat} {parts : List (List Place)}
    (h : ∀ places ∈ parts, places.Pairwise (· < ·)) :
    (numbered first parts).Pairwise (· < ·) := by
  induction parts generalizing first with
  | nil => exact List.Pairwise.nil
  | cons places parts ih =>
    refine List.pairwise_append.mpr ⟨?_, ih fun ps hps => h ps (List.mem_cons_of_mem _ hps), ?_⟩
    · refine List.pairwise_map.mpr ((h places List.mem_cons_self).imp fun hpq => ?_)
      exact List.cons_lt_cons_iff.mpr (.inr ⟨rfl, hpq⟩)
    · intro p hp p' hp'
      obtain ⟨rest, -, rfl⟩ := List.mem_map.mp hp
      obtain ⟨i, rest', rfl, hi⟩ := exists_cons_of_mem_numbered hp'
      exact List.cons_lt_cons_iff.mpr (.inl hi)

end Place

open Place

/-! ## Places of an expression -/

namespace Expr

/-- The literal at a place of an expression. -/
def literalAt? : Place → Expr → Option Value
  | [], .literal v => some v
  | i :: p, .call _ args => args[i]?.bind (literalAt? p)
  | i :: p, .binary left _ right => [left, right][i]?.bind (literalAt? p)
  | _, _ => none

mutual

/-- The places of the literals of an expression from left to right. -/
def places : Expr → List Place
  | .column _ => []
  | .literal _ => [[]]
  | .call _ args => numbered 0 (placesOfAll args)
  | .binary left _ right => numbered 0 [left.places, right.places]
  | .null => []
  | .star => []

/-- The places of the literals of each expression. -/
def placesOfAll : List Expr → List (List Place)
  | [] => []
  | x :: xs => x.places :: placesOfAll xs

end

theorem placesOfAll_eq_map (xs : List Expr) : placesOfAll xs = xs.map places := by
  induction xs with
  | nil => rfl
  | cons x xs ih => rw [placesOfAll, ih, List.map_cons]

theorem map_literalAt?_places (e : Expr) :
    e.places.map (literalAt? · e) = e.literals.map some := by
  induction e with
  | column c => rfl
  | literal v => rfl
  | call function args ih =>
    rw [places, placesOfAll_eq_map, literals, literalsOfAll_eq_flatMap]
    exact map_numbered (fun i p => by rw [Nat.zero_add, literalAt?]) ih
  | binary left op right ihl ihr =>
    have hoperands : (numbered 0 ([left, right].map places)).map
        (literalAt? · (.binary left op right)) = ([left, right].flatMap literals).map some :=
      map_numbered (fun i p => by rw [Nat.zero_add, literalAt?])
        (List.forall_mem_cons.mpr ⟨ihl, List.forall_mem_singleton.mpr ihr⟩)
    simpa [places, literals] using hoperands
  | null => rfl
  | star => rfl

/-- Expressions side by side hold their literals behind their numbers. -/
theorem map_places_operands {es : List Expr} {lookup : Place → Option Value}
    (hlookup : ∀ i p, lookup (i :: p) = es[i]?.bind (literalAt? p)) :
    (numbered 0 (es.map places)).map lookup = (es.flatMap literals).map some :=
  map_numbered (fun i p => by rw [Nat.zero_add, hlookup]) fun e _ => e.map_literalAt?_places

theorem sorted_places (e : Expr) : e.places.Pairwise (· < ·) := by
  induction e with
  | column c => exact List.Pairwise.nil
  | literal v => exact List.pairwise_singleton _ _
  | call function args ih =>
    rw [places, placesOfAll_eq_map]
    exact sorted_numbered (List.forall_mem_map.mpr ih)
  | binary left op right ihl ihr =>
    exact sorted_numbered (List.forall_mem_cons.mpr ⟨ihl, List.forall_mem_singleton.mpr ihr⟩)
  | null => exact List.Pairwise.nil
  | star => exact List.Pairwise.nil

theorem sorted_places_operands (es : List Expr) :
    (numbered 0 (es.map places)).Pairwise (· < ·) :=
  sorted_numbered (List.forall_mem_map.mpr fun e _ => e.sorted_places)

theorem places_relabel (r : Relabeling) (e : Expr) : (e.relabel r).places = e.places := by
  induction e with
  | column c => rfl
  | literal v => rfl
  | call function args ih =>
    rw [relabel, places, places, placesOfAll_eq_map, placesOfAll_eq_map, relabelAll_eq_map,
      List.map_map]
    exact congrArg _ (List.map_congr_left ih)
  | binary left op right ihl ihr => rw [relabel, places, places, ihl, ihr]
  | null => rfl
  | star => rfl

theorem map_places_relabel (r : Relabeling) (es : List Expr) :
    (es.map (relabel r)).map places = es.map places := by
  rw [List.map_map]
  exact List.map_congr_left fun e _ => e.places_relabel r

end Expr

/-! ## Places of a condition -/

namespace Condition

/-- The literal at a place of a condition. -/
def literalAt? : Place → Condition → Option Value
  | i :: p, .all members => members[i]?.bind (literalAt? p)
  | i :: p, .any members => members[i]?.bind (literalAt? p)
  | i :: p, .not c => [c][i]?.bind (literalAt? p)
  | i :: p, .compare left _ right => [left, right][i]?.bind (Expr.literalAt? p)
  | i :: p, .isNull e _ => [e][i]?.bind (Expr.literalAt? p)
  | i :: p, .inList e list _ => (e :: list)[i]?.bind (Expr.literalAt? p)
  | i :: p, .like e pattern _ _ => [e, pattern][i]?.bind (Expr.literalAt? p)
  | [], _ => none

mutual

/-- The places of the literals of a condition from left to right. What would be looked up in an
empty list is not written, so its places are left out. -/
def places : Condition → List Place
  | .all members => numbered 0 (placesOfAll members)
  | .any members => numbered 0 (placesOfAll members)
  | .not c => numbered 0 [c.places]
  | .compare left _ right => numbered 0 ([left, right].map Expr.places)
  | .isNull e _ => numbered 0 ([e].map Expr.places)
  | .inList _ [] _ => []
  | .inList e list _ => numbered 0 ((e :: list).map Expr.places)
  | .like e pattern _ _ => numbered 0 ([e, pattern].map Expr.places)

/-- The places of the literals of each condition. -/
def placesOfAll : List Condition → List (List Place)
  | [] => []
  | c :: cs => c.places :: placesOfAll cs

end

theorem placesOfAll_eq_map (cs : List Condition) : placesOfAll cs = cs.map places := by
  induction cs with
  | nil => rfl
  | cons c cs ih => rw [placesOfAll, ih, List.map_cons]

theorem map_literalAt?_places (c : Condition) :
    c.places.map (literalAt? · c) = c.literals.map some := by
  induction c with
  | all members ih =>
    rw [places, placesOfAll_eq_map, literals, literalsOfAll_eq_flatMap]
    exact map_numbered (fun i p => by rw [Nat.zero_add, literalAt?]) ih
  | any members ih =>
    rw [places, placesOfAll_eq_map, literals, literalsOfAll_eq_flatMap]
    exact map_numbered (fun i p => by rw [Nat.zero_add, literalAt?]) ih
  | not c ih =>
    have hdenied : (numbered 0 ([c].map places)).map (literalAt? · c.not) =
        ([c].flatMap literals).map some :=
      map_numbered (fun i p => by rw [Nat.zero_add, literalAt?]) (List.forall_mem_singleton.mpr ih)
    simpa [places, literals] using hdenied
  | compare left op right =>
    rw [places, Expr.map_places_operands fun i p => by rw [literalAt?]]
    simp [literals]
  | isNull e negated =>
    rw [places, Expr.map_places_operands fun i p => by rw [literalAt?]]
    simp [literals]
  | inList e list negated =>
    cases list with
    | nil => rfl
    | cons x xs =>
      rw [places, Expr.map_places_operands fun i p => by rw [literalAt?]]
      · rw [literals, List.flatMap_cons]
        exact List.cons_ne_nil x xs
      · exact List.cons_ne_nil x xs
  | like e pattern negated ignoreCase =>
    rw [places, Expr.map_places_operands fun i p => by rw [literalAt?]]
    simp [literals]

theorem sorted_places (c : Condition) : c.places.Pairwise (· < ·) := by
  induction c with
  | all members ih | any members ih =>
    rw [places, placesOfAll_eq_map]
    exact sorted_numbered (List.forall_mem_map.mpr ih)
  | not c ih => exact sorted_numbered (List.forall_mem_singleton.mpr ih)
  | compare left op right => exact Expr.sorted_places_operands [left, right]
  | isNull e negated => exact Expr.sorted_places_operands [e]
  | inList e list negated =>
    cases list with
    | nil => exact List.Pairwise.nil
    | cons x xs => exact Expr.sorted_places_operands (e :: x :: xs)
  | like e pattern negated ignoreCase => exact Expr.sorted_places_operands [e, pattern]

theorem places_relabel (r : Relabeling) (c : Condition) : (c.relabel r).places = c.places := by
  have hmembers : ∀ cs : List Condition, (∀ c ∈ cs, (c.relabel r).places = c.places) →
      placesOfAll (relabelAll r cs) = placesOfAll cs := by
    intro cs ih
    rw [placesOfAll_eq_map, placesOfAll_eq_map, relabelAll_eq_map, List.map_map]
    exact List.map_congr_left ih
  induction c with
  | all members ih | any members ih => rw [relabel, places, places, hmembers members ih]
  | not c ih => rw [relabel, places, places, ih]
  | compare left op right => exact congrArg (numbered 0) (Expr.map_places_relabel r [left, right])
  | isNull e negated => exact congrArg (numbered 0) (Expr.map_places_relabel r [e])
  | inList e list negated =>
    cases list with
    | nil => rfl
    | cons x xs => exact congrArg (numbered 0) (Expr.map_places_relabel r (e :: x :: xs))
  | like e pattern negated ignoreCase =>
    exact congrArg (numbered 0) (Expr.map_places_relabel r [e, pattern])

end Condition

/-! ## Places of a statement -/

namespace Projection

/-- The literal at a place of a projection. -/
def literalAt? (p : Place) : Projection → Option Value
  | .all => none
  | .allOf _ => none
  | .expr e _ => e.literalAt? p

/-- The places of the literals of a projection. -/
def places : Projection → List Place
  | .all => []
  | .allOf _ => []
  | .expr e _ => e.places

theorem map_literalAt?_places (p : Projection) :
    p.places.map (literalAt? · p) = p.literals.map some := by
  cases p with
  | all => rfl
  | allOf table => rfl
  | expr e label => exact e.map_literalAt?_places

theorem sorted_places (p : Projection) : p.places.Pairwise (· < ·) := by
  cases p with
  | all => exact List.Pairwise.nil
  | allOf table => exact List.Pairwise.nil
  | expr e label => exact e.sorted_places

theorem places_relabel (r : Relabeling) (p : Projection) : (p.relabel r).places = p.places := by
  cases p with
  | all => rfl
  | allOf table => rfl
  | expr e label => exact e.places_relabel r

end Projection

namespace Select

/-- The literal at a place of a statement. The parts of a statement are its projections, joins,
condition, groups and sort keys. -/
def literalAt? (s : Select) : Place → Option Value
  | 0 :: i :: p => s.projections[i]?.bind (Projection.literalAt? p)
  | 1 :: i :: p => s.joins[i]?.bind fun j => j.condition.literalAt? p
  | 2 :: p => s.condition.bind (Condition.literalAt? p)
  | 3 :: i :: p => s.groups[i]?.bind (Projection.literalAt? p)
  | 4 :: i :: p => s.sorts[i]?.bind fun k => k.expression.literalAt? p
  | _ => none

/-- The places of the literals of a statement in the order of its clauses. -/
def places (s : Select) : List Place :=
  numbered 0 [
    numbered 0 (s.projections.map Projection.places),
    numbered 0 (s.joins.map fun j => j.condition.places),
    s.condition.elim [] Condition.places,
    numbered 0 (s.groups.map Projection.places),
    numbered 0 (s.sorts.map fun k => k.expression.places)]

/-- The literals of a statement are what stands at its places. -/
theorem map_literalAt?_places (s : Select) :
    s.places.map s.literalAt? = s.literals.map some := by
  have hprojections : (numbered 0 (s.projections.map Projection.places)).map
      (s.literalAt? ∘ (0 :: ·)) = (s.projections.flatMap Projection.literals).map some :=
    map_numbered (fun i p => by rw [Nat.zero_add]; rfl) fun p _ => p.map_literalAt?_places
  have hjoins : (numbered 0 (s.joins.map fun j => j.condition.places)).map
      (s.literalAt? ∘ (1 :: ·)) = (s.joins.flatMap Join.literals).map some :=
    map_numbered (fun i p => by rw [Nat.zero_add]; rfl)
      fun j _ => j.condition.map_literalAt?_places
  have hcondition : (s.condition.elim [] Condition.places).map (s.literalAt? ∘ (2 :: ·)) =
      (s.condition.elim [] Condition.literals).map some := by
    cases h : s.condition with
    | none => rfl
    | some c =>
      rw [Option.elim, Option.elim, ← c.map_literalAt?_places]
      exact List.map_congr_left fun p _ => by simp [literalAt?, h]
  have hgroups : (numbered 0 (s.groups.map Projection.places)).map
      (s.literalAt? ∘ (3 :: ·)) = (s.groups.flatMap Projection.literals).map some :=
    map_numbered (fun i p => by rw [Nat.zero_add]; rfl) fun p _ => p.map_literalAt?_places
  have hsorts : (numbered 0 (s.sorts.map fun k => k.expression.places)).map
      (s.literalAt? ∘ (4 :: ·)) = (s.sorts.flatMap SortKey.literals).map some :=
    map_numbered (fun i p => by rw [Nat.zero_add]; rfl)
      fun k _ => k.expression.map_literalAt?_places
  simp only [places, numbered, List.map_append, List.map_map, hprojections, hjoins, hcondition,
    hgroups, hsorts, literals, List.append_nil, List.append_assoc, Nat.reduceAdd]

/-- The places of a statement go from left to right; so no literal is bound twice. -/
theorem sorted_places (s : Select) : s.places.Pairwise (· < ·) := by
  refine sorted_numbered ?_
  simp only [List.forall_mem_cons]
  refine ⟨?_, ?_, ?_, ?_, ?_, fun _ h => absurd h List.not_mem_nil⟩
  · exact sorted_numbered (List.forall_mem_map.mpr fun p _ => p.sorted_places)
  · exact sorted_numbered (List.forall_mem_map.mpr fun j _ => j.condition.sorted_places)
  · cases s.condition with
    | none => exact List.Pairwise.nil
    | some c => exact c.sorted_places
  · exact sorted_numbered (List.forall_mem_map.mpr fun p _ => p.sorted_places)
  · exact sorted_numbered (List.forall_mem_map.mpr fun k _ => k.expression.sorted_places)

/-- Changing the leaves of a statement moves none of its literals. -/
theorem places_relabel (r : Relabeling) (s : Select) : (s.relabel r).places = s.places := by
  have hcondition : (s.condition.map (Condition.relabel r)).elim [] Condition.places =
      s.condition.elim [] Condition.places := by
    cases s.condition with
    | none => rfl
    | some c => exact c.places_relabel r
  simp only [places, relabel, List.map_map, Function.comp_def, Projection.places_relabel,
    hcondition, Join.relabel, Condition.places_relabel, SortKey.relabel, Expr.places_relabel]

end Select

end SqlSelect
