import SqlSelect.Proofs.Reading.Clause

/-!
# Reading statements

The clauses of a statement are read in their order. What is read is the normal form of the
statement, so the text and the values bound in the end tell the normal form.
-/

namespace SqlSelect

open Reader Fragment

/-- Read a statement. -/
def Reader.select (lookup : Nat → Option Value) (depth : Nat) : Reader Select := do
  expect (.keyword .select)
  let h ← head (expr lookup depth) depth
  let tables ← clause .from (separated (.symbol .comma) table depth)
  let joins ← joins (condition lookup depth) depth
  let filter ← optional .where (condition lookup depth)
  let groups ← clause .group (groups (expr lookup depth) depth)
  let sorts ← clause .order (sorts (expr lookup depth) depth)
  let limit ← optional .limit count
  let offset ← optional .offset count
  return ⟨h.1, h.2, tables, joins, filter, groups, sorts, limit, offset⟩

section

variable {q : Quoting} {lookup : Nat → Option Value}

/-- What a statement would go on with. -/
def selectStops : List Token :=
  [.symbol .comma, .symbol .dot, .symbol .openParen, .keyword .as, .keyword .from, .keyword .inner,
   .keyword .left, .keyword .right, .keyword .full, .keyword .where, .keyword .and, .keyword .or,
   .keyword .group, .keyword .order, .keyword .asc, .keyword .desc, .keyword .nulls,
   .keyword .limit, .keyword .offset]

theorem Select.fragment_eq_trail (s : Select) : s.fragment = .keyword .select ::
    trail ((distinctClause s.distinct ++ projectionClause s.projections) ++
      (listClause [.from] (s.tables.map TableRef.fragment) ++
      (s.joins.map Join.fragment ++
      (conditionClause s.condition ++
      (listClause [.group, .by] (s.groups.filterMap Projection.groupFragment?) ++
      (listClause [.order, .by] (s.sorts.map SortKey.fragment) ++
      (countClause .limit s.limit ++ countClause .offset s.offset))))))) := by
  simp only [Select.fragment, clauses, List.append_assoc, List.cons_append, List.nil_append,
    spaced_cons]

/-- A statement that calls functions of bare names is read as its normal form. -/
theorem Select.reads_fragment {s : Select} (h : AllBare s.functions) {depth : Nat}
    (hdepth : s.fragment.length ≤ depth) :
    Reads q lookup (Reader.select lookup depth) s.fragment s.normalize selectStops := by
  obtain ⟨hprojections, hjoins, hcondition, hgroups, hsorts⟩ :
      AllBare (s.projections.flatMap Projection.functions) ∧
      AllBare (s.joins.flatMap fun j => j.condition.functions) ∧
      AllBare (s.condition.elim [] Condition.functions) ∧
      AllBare (s.groups.flatMap Projection.functions) ∧
      AllBare (s.sorts.flatMap fun k => k.expression.functions) :=
    ⟨h.append_left.append_left.append_left.append_left,
      h.append_left.append_left.append_left.append_right,
      h.append_left.append_left.append_right, h.append_left.append_right, h.append_right⟩
  -- what each clause is followed by
  have hoffset := opens_countClause .offset s.offset
  have hlimit := (opens_countClause .limit s.limit).append hoffset
  have horder := (opens_listClause .order [.by] (s.sorts.map SortKey.fragment)).append hlimit
  have hgroup := (opens_listClause .group [.by]
    (s.groups.filterMap Projection.groupFragment?)).append horder
  have hwhere := (opens_conditionClause s.condition).append hgroup
  have hjoin := (opens_joins s.joins).append hwhere
  have hfrom := (opens_listClause .from [] (s.tables.map TableRef.fragment)).append hjoin
  rw [fragment_eq_trail] at hdepth ⊢
  simp only [trail_append, List.length_cons, List.length_append] at hdepth
  refine ReadsAt.expect rfl (fun _ => rfl) ?_
  refine Reads.bind_trail (reads_head s.distinct (forall_mem_orAll hprojections) ?_) ?_ hfrom
    (by decide) (by decide)
  · rw [trail_append, List.length_append]
    omega
  refine Reads.bind_trail (reads_tables ?_) ?_ hjoin (by decide) (by decide)
  · omega
  refine Reads.bind_trail (reads_joins hjoins.of_flatMap (fun j hj => ?_) ?_) ?_ hwhere
    (by decide) (by decide)
  · have hle := j.length_condition_le
    have hmem := length_le_length_trail (List.mem_map_of_mem (f := Join.fragment) hj)
    omega
  · have hcount := length_le_trail (s.joins.map Join.fragment)
    rw [List.length_map] at hcount
    omega
  refine Reads.bind_trail (reads_filter hcondition ?_) ?_ hgroup (by decide) (by decide)
  · omega
  refine Reads.bind_trail (reads_groups hgroups.of_flatMap ?_) ?_ horder (by decide) (by decide)
  · omega
  refine Reads.bind_trail (reads_sorts hsorts.of_flatMap ?_) ?_ hlimit (by decide) (by decide)
  · omega
  refine Reads.bind_trail (reads_count .limit s.limit) ?_ hoffset (by decide) (by decide)
  exact ((reads_count .offset s.offset).map _).mono (by decide)

end

namespace Select

/-- The text of a statement with the values bound in the end is read as the normal form of the
statement. -/
theorem read?_write {s : Select} (h : AllBare s.functions) {q : Quoting} (hq : q ≠ .never)
    (binds : List Value) : (s.fragment.write q binds).read? Reader.select = some s.normalize :=
  Statement.read?_write hq (readable_fragment h.allPlain) binds
    (s.reads_fragment h (Nat.le_refl _))

/-- Two statements that call functions of bare names have the same normal form if they are written
as the same text and bind the same values in the end. -/
theorem normalize_eq_of_write_eq {s t : Select} (hs : AllBare s.functions)
    (ht : AllBare t.functions) {q : Quoting} (hq : q ≠ .never) {binds binds' : List Value}
    (h : s.fragment.write q binds = t.fragment.write q binds') : s.normalize = t.normalize := by
  have hread := read?_write hs hq binds
  rw [h, read?_write ht hq binds'] at hread
  exact (Option.some.inj hread).symm

theorem normalize_eq_of_write_eq_grouped :
    let s : Select :=
      { projections := [.expr (.call "max" [.column ⟨none, "a"⟩]) none]
        condition := some (.all [.any [], .compare (.literal .null) .less .null])
        groups := [.allOf "t", .expr .star (some "b")] }
    let t : Select :=
      { projections := [.expr (.call "max" [.column ⟨none, "a"⟩]) none]
        condition := some (.all [.any [.inList .star [] false],
          .compare (.literal .null) .less .null])
        groups := [.expr .star none] }
    s ≠ t ∧ s.normalize = t.normalize := by
  intro s t
  have hbare : AllBare ["max"] := List.forall_mem_singleton.mpr (by decide)
  refine ⟨fun h => ?_, normalize_eq_of_write_eq hbare hbare (q := .always) (by decide)
    (show s.fragment.write .always [.null] = t.fragment.write .always [.null] from rfl)⟩
  cases congrArg Select.groups h

end Select

end SqlSelect
