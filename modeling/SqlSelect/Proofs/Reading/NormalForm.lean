import SqlSelect.Proofs.Reading.Condition

/-!
# Normal forms

What the text of a statement does not tell: an empty projection list is a star, and so is the
wildcard expression without an alias; groups have neither wildcards nor aliases; an empty group or
membership in an empty list is a constant, and a group of one member is that member. Everything else
is kept.
-/

namespace SqlSelect

/-! ## Conditions -/

namespace Condition

/-- All of the conditions. One condition is itself; without conditions this is the constant `TRUE`.
-/
def conjunction : List Condition → Condition
  | [c] => c
  | cs => .all cs

/-- Some of the conditions. One condition is itself; without conditions this is the constant
`FALSE`. -/
def disjunction : List Condition → Condition
  | [c] => c
  | cs => .any cs

mutual

/-- The normal form of a condition. -/
def normalize : Condition → Condition
  | .all members => conjunction (normalizeAll members)
  | .any members => disjunction (normalizeAll members)
  | .not c => .not c.normalize
  | .inList _ [] negated => if negated then .all [] else .any []
  | .inList e (x :: xs) negated => .inList e (x :: xs) negated
  | .compare left op right => .compare left op right
  | .isNull e negated => .isNull e negated
  | .like e pattern negated ignoreCase => .like e pattern negated ignoreCase

/-- The normal forms of conditions. -/
def normalizeAll : List Condition → List Condition
  | [] => []
  | c :: cs => c.normalize :: normalizeAll cs

end

end Condition

/-! ## Statements -/

/-- The normal form of a projection. -/
def Projection.normalize : Projection → Projection
  | .expr .star none => .all
  | p => p

/-- A projection list; an empty one is a star. -/
def Projection.orAll : List Projection → List Projection
  | [] => [.all]
  | projections => projections

/-- The normal form of a join. -/
def Join.normalize (j : Join) : Join :=
  { j with condition := j.condition.normalize }

/-- The normal form of a statement. -/
def Select.normalize (s : Select) : Select :=
  { s with
    projections := (Projection.orAll s.projections).map Projection.normalize
    joins := s.joins.map Join.normalize
    condition := s.condition.map Condition.normalize
    groups := (s.groups.filterMap Projection.grouped?).map Projection.ofExpr }

/-! ## The normal form is what is read -/

namespace Formula

mutual

/-- The condition that a formula stands for. -/
def toCondition : Formula → Condition
  | .true => .all []
  | .false => .any []
  | .atom test _ => test
  | .not f => .not f.toCondition
  | .all members => .all (toConditions members)
  | .any members => .any (toConditions members)

/-- The conditions that formulas stand for. -/
def toConditions : List Formula → List Condition
  | [] => []
  | f :: fs => f.toCondition :: toConditions fs

end

theorem toCondition_conjunction (fs : List Formula) :
    (conjunction fs).toCondition = Condition.conjunction (toConditions fs) := by
  rcases fs with _ | ⟨f, _ | ⟨g, fs⟩⟩ <;> rfl

theorem toCondition_disjunction (fs : List Formula) :
    (disjunction fs).toCondition = Condition.disjunction (toConditions fs) := by
  rcases fs with _ | ⟨f, _ | ⟨g, fs⟩⟩ <;> rfl

end Formula

/-- The formula of a condition stands for its normal form. -/
theorem Condition.toCondition_formula (q : Quoting) (bound : Nat) (c : Condition) :
    (c.formula q bound).toCondition = c.normalize := by
  have hmembers : ∀ cs : List Condition,
      (∀ c ∈ cs, ∀ bound, (c.formula q bound).toCondition = c.normalize) →
      ∀ bound, Formula.toConditions (formulas q bound cs) = normalizeAll cs := by
    intro cs ih
    induction cs with
    | nil => exact fun _ => rfl
    | cons c cs ihcs =>
      intro bound
      rw [formulas, Formula.toConditions, normalizeAll, ih c List.mem_cons_self,
        ihcs fun d hd => ih d (List.mem_cons_of_mem c hd)]
  induction c generalizing bound with
  | all members ih =>
    rw [formula, Formula.toCondition_conjunction, normalize, hmembers members ih]
  | any members ih =>
    rw [formula, Formula.toCondition_disjunction, normalize, hmembers members ih]
  | not c ih => rw [formula, Formula.toCondition, normalize, ih]
  | inList e list negated =>
    cases list with
    | nil => cases negated <;> rfl
    | cons x xs => rfl
  | _ => rfl

end SqlSelect
