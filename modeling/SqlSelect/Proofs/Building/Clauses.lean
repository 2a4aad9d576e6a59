import SqlSelect.Proofs.Building.Combination

/-!
# Clauses are built independently

A building step belongs to one clause. Lists take its entries at their end, and the distinct
columns, the limit and the offset are set by it; conditions are combined as `Combination` says. No
step looks at another clause, so a statement holds in each clause what the steps of that clause give
by themselves, whatever steps of other clauses stand between them (`Select.build_eq`).
-/

namespace SqlSelect

/-- The clauses of a statement. -/
inductive Clause where
  | distinct | projections | tables | joins | condition | groups | sorts | limit | offset
deriving DecidableEq

namespace Select

/-! ## What a step gives -/

namespace Step

/-- The clause that a step belongs to. -/
def clause : Step → Clause
  | .distinctRows | .distinctOn _ => .distinct
  | .projectOne _ | .project _ => .projections
  | .fromTable _ => .tables
  | .join _ _ _ | .innerJoin _ _ | .leftJoin _ _ => .joins
  | .filter _ | .orFilter _ => .condition
  | .groupBy _ => .groups
  | .orderBy _ => .sorts
  | .withLimit _ => .limit
  | .withOffset _ => .offset

/-- The columns in which rows are to be distinct; none of them stands for whole rows. -/
def distinct? : Step → Option (List Column)
  | .distinctRows => some []
  | .distinctOn columns => some columns
  | _ => none

/-- The projections that a step adds. -/
def projections : Step → List Projection
  | .projectOne projection => [projection]
  | .project projections => projections
  | _ => []

/-- The source table that a step adds. -/
def table? : Step → Option TableRef
  | .fromTable table => some table
  | _ => none

/-- The join that a step adds. -/
def join? : Step → Option Join
  | .join kind table condition => some ⟨kind, table, condition⟩
  | .innerJoin table condition => some ⟨.inner, table, condition⟩
  | .leftJoin table condition => some ⟨.left, table, condition⟩
  | _ => none

/-- The grouping that a step adds. -/
def group? : Step → Option Projection
  | .groupBy group => some group
  | _ => none

/-- The sort key that a step adds. -/
def sort? : Step → Option SortKey
  | .orderBy sort => some sort
  | _ => none

/-- The number of rows that a step takes at most. -/
def limit? : Step → Option UInt64
  | .withLimit rows => some rows
  | _ => none

/-- The number of rows that a step skips. -/
def offset? : Step → Option UInt64
  | .withOffset rows => some rows
  | _ => none

end Step

/-- A step sets its own clause or adds to it, and leaves all others as they are. -/
theorem apply_eq (s : Select) (step : Step) :
    s.apply step =
      { distinct := step.distinct?.or s.distinct
        projections := s.projections ++ step.projections
        tables := s.tables ++ step.table?.toList
        joins := s.joins ++ step.join?.toList
        condition := (s.apply step).condition
        groups := s.groups ++ step.group?.toList
        sorts := s.sorts ++ step.sort?.toList
        limit := step.limit?.or s.limit
        offset := step.offset?.or s.offset } := by
  -- in a clause of another kind nothing is added, and an empty list behind a list is not seen
  have hnil : ∀ {α : Type} (xs : List α), xs ++ [] = xs := List.append_nil
  cases step <;>
    simp only [Step.distinct?, Step.projections, Step.table?, Step.join?, Step.group?, Step.sort?,
      Step.limit?, Step.offset?, Option.toList, Option.none_or, Option.some_or, hnil] <;>
    rfl

/-! ## What steps build -/

/-- A later setting takes over. -/
theorem getLast?_append_toList {α : Type} (settings : List α) (setting : Option α) :
    (settings ++ setting.toList).getLast? = setting.or settings.getLast? := by
  rw [List.getLast?_append]
  cases setting <;> rfl

theorem filterMap_append_singleton {α : Type} (given : Step → Option α) (steps : List Step)
    (step : Step) :
    (steps ++ [step]).filterMap given = steps.filterMap given ++ (given step).toList := by
  rw [List.filterMap_append]
  cases h : given step <;> simp [h]

/-- Each clause of a built statement is made of what the steps give for it: the last setting, all
entries in order, or the combined conditions. -/
theorem build_eq (steps : List Step) :
    build steps =
      { distinct := (steps.filterMap Step.distinct?).getLast?
        projections := steps.flatMap Step.projections
        tables := steps.filterMap Step.table?
        joins := steps.filterMap Step.join?
        condition :=
          (Combination.inTurn? (steps.filterMap Step.joined?)).map Combination.build
        groups := steps.filterMap Step.group?
        sorts := steps.filterMap Step.sort?
        limit := (steps.filterMap Step.limit?).getLast?
        offset := (steps.filterMap Step.offset?).getLast? } := by
  induction steps using List.reverseRecOn with
  | nil => rfl
  | append_singleton steps step ih =>
    rw [← condition_build, build_append, apply_eq, ih]
    simp only [filterMap_append_singleton, getLast?_append_toList, List.flatMap_append,
      List.flatMap_singleton]

/-! ## The steps of one clause -/

/-- The steps of a clause, in order. -/
def stepsOf (clause : Clause) (steps : List Step) : List Step :=
  steps.filter (·.clause = clause)

/-- What only the steps of a clause give is given by these steps alone. -/
theorem flatMap_stepsOf {α : Type} {clause : Clause} (given : Step → List α)
    (h : ∀ step, step.clause ≠ clause → given step = []) (steps : List Step) :
    (stepsOf clause steps).flatMap given = steps.flatMap given := by
  induction steps with
  | nil => rfl
  | cons step steps ih =>
    rw [stepsOf, List.filter_cons, List.flatMap_cons]
    split
    · exact congrArg (given step ++ ·) ih
    · rename_i hclause
      rw [h step fun heq => hclause (decide_eq_true heq)]
      exact ih

theorem filterMap_stepsOf {α : Type} {clause : Clause} (given : Step → Option α)
    (h : ∀ step, step.clause ≠ clause → given step = none) (steps : List Step) :
    (stepsOf clause steps).filterMap given = steps.filterMap given := by
  rw [List.filterMap_eq_flatMap_toList, List.filterMap_eq_flatMap_toList]
  exact flatMap_stepsOf _ (fun step hclause => by rw [h step hclause]; rfl) steps

/-- The condition of a statement is what the filter calls build, with no other step. -/
theorem condition_stepsOf (steps : List Step) :
    (build (stepsOf .condition steps)).condition = (build steps).condition := by
  rw [condition_build, condition_build, filterMap_stepsOf]
  intro step hclause
  cases step with
  | filter c | orFilter c => exact absurd rfl hclause
  | _ => rfl

/-- Steps that agree clause by clause build the same statement. -/
theorem build_eq_of_stepsOf_eq {steps steps' : List Step}
    (h : ∀ clause, stepsOf clause steps = stepsOf clause steps') : build steps = build steps' := by
  have hsettings : ∀ {α : Type} (clause : Clause) (given : Step → Option α),
      (∀ step, step.clause ≠ clause → given step = none) →
      steps.filterMap given = steps'.filterMap given := by
    intro α clause given hnone
    rw [← filterMap_stepsOf given hnone, h, filterMap_stepsOf given hnone]
  have hprojections : steps.flatMap Step.projections = steps'.flatMap Step.projections := by
    have hnil : ∀ step : Step, step.clause ≠ .projections → step.projections = [] := by
      intro step hclause
      cases step with
      | projectOne p | project ps => exact absurd rfl hclause
      | _ => rfl
    rw [← flatMap_stepsOf Step.projections hnil, h, flatMap_stepsOf Step.projections hnil]
  rw [build_eq, build_eq, hprojections, hsettings .distinct Step.distinct? ?_,
    hsettings .tables Step.table? ?_, hsettings .joins Step.join? ?_,
    hsettings .condition Step.joined? ?_, hsettings .groups Step.group? ?_,
    hsettings .sorts Step.sort? ?_, hsettings .limit Step.limit? ?_,
    hsettings .offset Step.offset? ?_]
  -- a step of another clause gives nothing
  all_goals
    intro step hclause
    cases step <;> first | rfl | exact absurd rfl hclause

/-- Each clause of a built statement is what the steps of this clause give: the last setting of the
distinct columns, of the limit and of the offset, all entries of the lists in order, and the
condition that the filter calls build by themselves. So steps that agree clause by clause build the
same statement, and it is written in the same way, however the clauses are interleaved. -/
theorem clauses_build :
    (∀ steps : List Step,
      let s := build steps
      s.distinct = (steps.filterMap Step.distinct?).getLast? ∧
      s.projections = steps.flatMap Step.projections ∧
      s.tables = steps.filterMap Step.table? ∧
      s.joins = steps.filterMap Step.join? ∧
      s.condition = (build (stepsOf .condition steps)).condition ∧
      s.groups = steps.filterMap Step.group? ∧
      s.sorts = steps.filterMap Step.sort? ∧
      s.limit = (steps.filterMap Step.limit?).getLast? ∧
      s.offset = (steps.filterMap Step.offset?).getLast?) ∧
    ∀ steps steps' : List Step,
      (∀ clause, stepsOf clause steps = stepsOf clause steps') →
      build steps = build steps' ∧
      ∀ q binds,
        (build steps).fragment.write q binds = (build steps').fragment.write q binds := by
  refine ⟨fun steps => ?_, fun steps steps' h => ?_⟩
  · rw [condition_stepsOf, build_eq]
    exact ⟨rfl, rfl, rfl, rfl, rfl, rfl, rfl, rfl, rfl⟩
  · have hbuild := build_eq_of_stepsOf_eq h
    exact ⟨hbuild, fun q binds => by rw [hbuild]⟩

/-- Filters of both kinds, a join and two limits, in two interleavings. -/
theorem clauses_build_interleaved :
    let c : Condition := .compareValue ⟨none, "a"⟩ .equal (.int 1)
    let d : Condition := .columnsEqual ⟨none, "a"⟩ ⟨some "t", "b"⟩
    let table : TableRef := .bare "t"
    let steps : List Step :=
      [.filter c, .withLimit 1, .innerJoin table d, .orFilter d, .distinctRows, .withLimit 2]
    let steps' : List Step :=
      [.distinctRows, .withLimit 1, .withLimit 2, .filter c, .orFilter d, .innerJoin table d]
    build steps = build steps' ∧
      (build steps).fragment.write .always [.null] =
        (build steps').fragment.write .always [.null] := by
  intro c d table steps steps'
  have hclauses : ∀ clause, stepsOf clause steps = stepsOf clause steps' := by
    intro clause
    cases clause <;> rfl
  have hsame := clauses_build.2 steps steps' hclauses
  exact ⟨hsame.1, hsame.2 .always [.null]⟩

end Select

end SqlSelect
