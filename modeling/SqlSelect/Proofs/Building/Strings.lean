import SqlSelect.Proofs.Building.Clauses
import SqlSelect.Proofs.Naming.Conversion
import SqlSelect.Proofs.Naming.Strategies
import SqlSelect.Proofs.Queries.Equality
import Mathlib.Algebra.Order.BigOperators.Group.List

/-!
# Building from strings

Columns, tables and projections may be given as strings, and a string may be a view or be owned. To
columns and tables this makes no difference. A projection given as a view may be a wildcard, but one
given as an owned string is always a column. So the two forms build the same statement exactly if no
wildcard is among the projections and the groups. If there is one, the texts differ as well: with
all names quoted, the column has more quotes than the wildcard.
-/

namespace SqlSelect

/-! ## Counting quotes -/

/-- The quotes that a quoted name is given: one at each end, and its own a second time. -/
def quoteMarks (name : String) : Nat := name.toList.count '"' + 2

/-- The quotes that names are given. -/
def quoteMarksOf (names : List String) : Nat := (names.map quoteMarks).sum

theorem length_quotedName (name : String) :
    (quotedName name).length = name.toList.length + quoteMarks name := by
  have hinside : ∀ chars : List Char,
      (chars.flatMap quotedChar).length = chars.length + chars.count '"' := by
    intro chars
    induction chars with
    | nil => rfl
    | cons c chars ih =>
      rw [List.flatMap_cons, List.length_append, ih, quotedChar, List.length_cons]
      by_cases hc : c = '"'
      · rw [if_pos hc, hc, List.count_cons_self, List.length_cons, List.length_singleton]
        omega
      · rw [if_neg hc, List.count_cons_of_ne hc, List.length_singleton]
        omega
  rw [quotedName, List.length_cons, List.length_append, hinside, quoteMarks, List.length_singleton]
  omega

theorem quoteMarksOf_append (names names' : List String) :
    quoteMarksOf (names ++ names') = quoteMarksOf names + quoteMarksOf names' := by
  rw [quoteMarksOf, List.map_append, List.sum_append]
  rfl

theorem quoteMarksOf_flatMap {α : Type} (names : α → List String) (xs : List α) :
    quoteMarksOf (xs.flatMap names) = (xs.map fun x => quoteMarksOf (names x)).sum := by
  induction xs with
  | nil => rfl
  | cons x xs ih => rw [List.flatMap_cons, quoteMarksOf_append, ih, List.map_cons, List.sum_cons]

/-- With all names quoted a text is longer by just these quotes. -/
theorem Fragment.length_chars_always (f : Fragment) (bound : Nat) :
    (f.chars .always bound).length = (f.chars .never bound).length + quoteMarksOf f.names := by
  induction f generalizing bound with
  | nil => rfl
  | cons p f ih =>
    have hpiece : (p.chars .always bound).length =
        (p.chars .never bound).length + quoteMarksOf p.name?.toList := by
      cases p with
      | name word => exact length_quotedName word
      | _ => rfl
    rw [chars_cons, chars_cons, List.length_append, List.length_append, hpiece, ih, names_cons,
      quoteMarksOf_append]
    omega

/-- Texts that are the same without quotes and with all names quoted have equally many quotes. -/
theorem Select.quoteMarksOf_names_eq {s t : Select}
    (h : ∀ q, (s.statement q).text = (t.statement q).text) :
    quoteMarksOf s.names = quoteMarksOf t.names := by
  have hchars : ∀ q, s.fragment.chars q 0 = t.fragment.chars q 0 := fun q =>
    String.ofList_inj.mp (h q)
  have hs := s.fragment.length_chars_always 0
  have ht := t.fragment.length_chars_always 0
  rw [hchars, hchars, ht, names_fragment, names_fragment] at hs
  omega

/-! ## The quotes of a column and of a wildcard -/

theorem quoteMarksOf_ofString (s : String) :
    quoteMarksOf (Column.ofString s).names =
      s.toList.count '"' + if '.' ∈ s.toList then 4 else 2 := by
  obtain ⟨hjoin, hdot⟩ := (splitQualifier_eq_iff s _ _).mp Prod.mk.eta.symm
  show quoteMarksOf ((splitQualifier s).1.toList ++ [(splitQualifier s).2]) = _
  generalize (splitQualifier s).1 = qualifier, (splitQualifier s).2 = name at hjoin hdot
  subst hjoin
  cases qualifier with
  | none =>
    have hmem : '.' ∉ (joinQualifier none name).toList := hdot
    rw [if_neg hmem]
    rfl
  | some qualifier =>
    have hmem : '.' ∈ (joinQualifier (some qualifier) name).toList := by
      simp [joinQualifier]
    have hcount : (joinQualifier (some qualifier) name).toList.count '"' =
        qualifier.toList.count '"' + name.toList.count '"' := by
      simp [joinQualifier]
    rw [if_pos hmem, hcount]
    show quoteMarks qualifier + (quoteMarks name + 0) = _
    rw [quoteMarks, quoteMarks]
    omega

/-- A wildcard has fewer quotes than the column that its string names. -/
theorem IsWildcard.quoteMarksOf_lt {s : String} (h : IsWildcard s) :
    quoteMarksOf (Projection.ofString s).names <
      quoteMarksOf (Projection.ofColumnName s).names := by
  have hcolumn : (Projection.ofColumnName s).names = (Column.ofString s).names :=
    List.append_nil _
  rw [hcolumn, quoteMarksOf_ofString]
  rcases h with rfl | ⟨table, rfl⟩
  · decide
  · have hmem : '.' ∈ (table ++ ".*").toList := by
      simp
    have hcount : (table ++ ".*").toList.count '"' = table.toList.count '"' := by
      simp
    rw [Projection.ofString_allOf, if_pos hmem, hcount]
    show quoteMarks table + 0 < _
    rw [quoteMarks]
    omega

/-- The names that are written where a projection is a group. -/
def Projection.groupNames (p : Projection) : List String := p.grouped?.elim [] Expr.names

theorem groupNames_flatMap (groups : List Projection) :
    (groups.filterMap Projection.grouped?).flatMap Expr.names =
      groups.flatMap Projection.groupNames := by
  induction groups with
  | nil => rfl
  | cons p groups ih =>
    cases p with
    | all => exact ih
    | allOf table => exact ih
    | expr e label => exact congrArg (e.names ++ ·) ih

/-- A wildcard is no group at all, so it has no quotes there. -/
theorem IsWildcard.quoteMarksOf_groupNames_lt {s : String} (h : IsWildcard s) :
    quoteMarksOf (Projection.ofString s).groupNames <
      quoteMarksOf (Projection.ofColumnName s).groupNames := by
  have hview : (Projection.ofString s).groupNames = [] := by
    rcases h with rfl | ⟨table, rfl⟩
    · rw [Projection.ofString_star]
      rfl
    · rw [Projection.ofString_allOf]
      rfl
  rw [hview]
  show 0 < quoteMarksOf (Column.ofString s).names
  rw [quoteMarksOf_ofString]
  split <;> omega

/-- Where only the wildcards among some strings count for less, sums are the same only if there are
no wildcards. -/
theorem not_isWildcard_of_sum_eq {f g : String → Nat} (hlt : ∀ s, IsWildcard s → f s < g s)
    (heq : ∀ s, ¬ IsWildcard s → f s = g s) (strings : List String) :
    (strings.map f).sum ≤ (strings.map g).sum ∧
      ((strings.map f).sum = (strings.map g).sum → ∀ s ∈ strings, ¬ IsWildcard s) := by
  have hle : ∀ s, f s ≤ g s := by
    intro s
    by_cases h : IsWildcard s
    · exact (hlt s h).le
    · exact (heq s h).le
  refine ⟨List.sum_le_sum fun s _ => hle s, fun hsum s hs hwild => ?_⟩
  exact (List.sum_lt_sum f g (fun s _ => hle s) ⟨s, hs, hlt s hwild⟩).ne hsum

/-! ## Building calls that take strings -/

/-- How a string is given. -/
inductive StringForm where
  /-- a view of a string -/
  | view
  /-- a string of its own -/
  | owned

namespace StringForm

/-- The column that a string names. -/
def column : StringForm → String → Column
  | view | owned => Column.ofString

/-- The table that a string names. -/
def table : StringForm → String → TableRef
  | view | owned => TableRef.ofString

/-- The projection or the group that a string names. -/
def projection : StringForm → String → Projection
  | view => Projection.ofString
  | owned => Projection.ofColumnName

end StringForm

namespace Select

/-- A building call that takes strings. -/
inductive NamedStep where
  | distinctOn (columns : List String)
  | projectOne (projection : String)
  | project (projections : List String)
  | fromTable (table : String)
  | join (kind : JoinKind) (table : String) (condition : Condition)
  | groupBy (group : String)

namespace NamedStep

/-- The step of a call whose strings are all given in one form. -/
def toStep (form : StringForm) : NamedStep → Step
  | distinctOn columns => .distinctOn (columns.map form.column)
  | projectOne projection => .projectOne (form.projection projection)
  | project projections => .project (projections.map form.projection)
  | fromTable table => .fromTable (form.table table)
  | join kind table condition => .join kind (form.table table) condition
  | groupBy group => .groupBy (form.projection group)

/-- The strings that a call takes for projections. -/
def projections : NamedStep → List String
  | projectOne projection => [projection]
  | project projections => projections
  | _ => []

/-- The string that a call takes for a group. -/
def group? : NamedStep → Option String
  | groupBy group => some group
  | _ => none

theorem projections_toStep (form : StringForm) (step : NamedStep) :
    (step.toStep form).projections = step.projections.map form.projection := by
  cases step <;> rfl

theorem group?_toStep (form : StringForm) (step : NamedStep) :
    (step.toStep form).group? = step.group?.map form.projection := by
  cases step <;> rfl

end NamedStep

/-- The statement built by calls whose strings are all given in one form. -/
def buildFrom (form : StringForm) (steps : List NamedStep) : Select :=
  build (steps.map (·.toStep form))

/-- The strings that calls take for projections and groups. -/
def projectionStrings (steps : List NamedStep) : List String :=
  steps.flatMap NamedStep.projections ++ steps.filterMap NamedStep.group?

theorem projections_buildFrom (form : StringForm) (steps : List NamedStep) :
    (buildFrom form steps).projections =
      (steps.flatMap NamedStep.projections).map form.projection := by
  rw [buildFrom, build_eq, List.flatMap_map, List.map_flatMap]
  simp only [NamedStep.projections_toStep]

theorem groups_buildFrom (form : StringForm) (steps : List NamedStep) :
    (buildFrom form steps).groups =
      (steps.filterMap NamedStep.group?).map form.projection := by
  rw [buildFrom, build_eq]
  show (steps.map _).filterMap Step.group? = _
  rw [List.filterMap_map, List.map_filterMap]
  exact List.filterMap_congr fun step _ => step.group?_toStep form

/-- The form of the strings is seen in the projections and the groups only. -/
theorem buildFrom_owned (steps : List NamedStep) :
    buildFrom .owned steps =
      { buildFrom .view steps with
        projections := (steps.flatMap NamedStep.projections).map Projection.ofColumnName
        groups := (steps.filterMap NamedStep.group?).map Projection.ofColumnName } := by
  have hsame : ∀ {α : Type} (given : Step → Option α),
      (∀ step : NamedStep, given (step.toStep .owned) = given (step.toStep .view)) →
      (steps.map (·.toStep .owned)).filterMap given =
        (steps.map (·.toStep .view)).filterMap given := by
    intro α given h
    rw [List.filterMap_map, List.filterMap_map]
    exact List.filterMap_congr fun step _ => h step
  have hprojections := projections_buildFrom .owned steps
  have hgroups := groups_buildFrom .owned steps
  rw [buildFrom, build_eq] at hprojections hgroups
  rw [buildFrom, buildFrom, build_eq, build_eq]
  dsimp only at hprojections hgroups ⊢
  rw [hprojections, hgroups, hsame Step.distinct? ?_, hsame Step.table? ?_, hsame Step.join? ?_,
    hsame Step.joined? ?_, hsame Step.sort? ?_, hsame Step.limit? ?_, hsame Step.offset? ?_]
  · rfl
  all_goals
    intro step
    cases step <;> rfl

theorem buildFrom_owned_of_not_isWildcard {steps : List NamedStep}
    (h : ∀ s ∈ projectionStrings steps, ¬ IsWildcard s) :
    buildFrom .owned steps = buildFrom .view steps := by
  obtain ⟨hprojections, hgroups⟩ := List.forall_mem_append.mp h
  have hsame : ∀ strings : List String, (∀ s ∈ strings, ¬ IsWildcard s) →
      strings.map Projection.ofColumnName = strings.map Projection.ofString := by
    intro strings hstrings
    refine List.map_congr_left fun s hs => ?_
    exact (Projection.ofString_of_not_isWildcard (hstrings s hs)).symm
  rw [buildFrom_owned, hsame _ hprojections, hsame _ hgroups]
  exact congrArg₂ (fun ps gs => { buildFrom .view steps with projections := ps, groups := gs })
    (projections_buildFrom .view steps).symm (groups_buildFrom .view steps).symm

/-! ## Wildcards are seen in the text -/

/-- The quotes in a statement, apart from those of the projections and the groups. -/
def otherMarks (s : Select) : Nat :=
  quoteMarksOf { s with projections := [], groups := [] }.names

theorem quoteMarksOf_names (s : Select) :
    quoteMarksOf s.names = s.otherMarks + quoteMarksOf (s.projections.flatMap Projection.names) +
      quoteMarksOf (s.groups.flatMap Projection.groupNames) := by
  rw [otherMarks, names, names, groupNames_flatMap]
  simp only [quoteMarksOf_append]
  show _ = _ + 0 + _ + _ + _ + 0 + _ + _ + _
  omega

theorem quoteMarksOf_buildFrom (form : StringForm) (steps : List NamedStep) :
    quoteMarksOf (buildFrom form steps).names = (buildFrom form steps).otherMarks +
      ((steps.flatMap NamedStep.projections).map fun s =>
        quoteMarksOf (form.projection s).names).sum +
      ((steps.filterMap NamedStep.group?).map fun s =>
        quoteMarksOf (form.projection s).groupNames).sum := by
  rw [quoteMarksOf_names, projections_buildFrom, groups_buildFrom, quoteMarksOf_flatMap,
    quoteMarksOf_flatMap, List.map_map, List.map_map]
  rfl

theorem not_isWildcard_of_text_eq {steps : List NamedStep}
    (h : ∀ q, ((buildFrom .owned steps).statement q).text =
      ((buildFrom .view steps).statement q).text) :
    ∀ s ∈ projectionStrings steps, ¬ IsWildcard s := by
  have hmarks := quoteMarksOf_names_eq h
  have hother : (buildFrom .owned steps).otherMarks = (buildFrom .view steps).otherMarks := by
    rw [buildFrom_owned]
    rfl
  rw [quoteMarksOf_buildFrom, quoteMarksOf_buildFrom, hother] at hmarks
  have hcolumn : ∀ s, ¬ IsWildcard s → Projection.ofString s = Projection.ofColumnName s :=
    fun s => Projection.ofString_of_not_isWildcard
  obtain ⟨hple, hpeq⟩ := not_isWildcard_of_sum_eq
    (f := fun s => quoteMarksOf (Projection.ofString s).names)
    (g := fun s => quoteMarksOf (Projection.ofColumnName s).names)
    (fun s hs => hs.quoteMarksOf_lt) (fun s hs => by rw [hcolumn s hs])
    (steps.flatMap NamedStep.projections)
  obtain ⟨hgle, hgeq⟩ := not_isWildcard_of_sum_eq
    (f := fun s => quoteMarksOf (Projection.ofString s).groupNames)
    (g := fun s => quoteMarksOf (Projection.ofColumnName s).groupNames)
    (fun s hs => hs.quoteMarksOf_groupNames_lt) (fun s hs => by rw [hcolumn s hs])
    (steps.filterMap NamedStep.group?)
  -- neither part can have fewer quotes, since the other cannot have more
  simp only [StringForm.projection] at hmarks
  exact List.forall_mem_append.mpr ⟨hpeq (by omega), hgeq (by omega)⟩

/-! ## The forms compared -/

/-- A string binds nothing, in whatever form. -/
theorem literals_projection (form : StringForm) (s : String) :
    (form.projection s).literals = [] := by
  cases form with
  | owned => rfl
  | view =>
    by_cases h : IsWildcard s
    · rcases h with rfl | ⟨table, rfl⟩
      · rfl
      · show (Projection.ofString (table ++ ".*")).literals = []
        rw [Projection.ofString_allOf]
        rfl
    · show (Projection.ofString s).literals = []
      rw [Projection.ofString_of_not_isWildcard h]
      rfl

theorem literals_buildFrom_owned (steps : List NamedStep) :
    (buildFrom .owned steps).literals = (buildFrom .view steps).literals := by
  have hnil : ∀ (form : StringForm) (strings : List String),
      (strings.map form.projection).flatMap Projection.literals = [] := by
    intro form strings
    rw [List.flatMap_map, List.flatMap_eq_nil_iff]
    exact fun s _ => literals_projection form s
  rw [literals, literals, projections_buildFrom, projections_buildFrom, groups_buildFrom,
    groups_buildFrom, hnil, hnil, hnil, hnil, buildFrom_owned]

/-- Calls with owned strings build what they build with views, but for the projections and the
groups, which are always columns; the same values are bound. The statements are equal exactly if
none of the strings for projections and groups is a wildcard, and only then are they written as the
same text under every quoting strategy. -/
theorem buildFrom_forms (steps : List NamedStep) :
    let owned := buildFrom .owned steps
    let view := buildFrom .view steps
    owned =
      { view with
        projections := (steps.flatMap NamedStep.projections).map Projection.ofColumnName
        groups := (steps.filterMap NamedStep.group?).map Projection.ofColumnName } ∧
    (∀ q binds, (owned.fragment.write q binds).binds = (view.fragment.write q binds).binds) ∧
    ((owned == view) = true ↔ ∀ s ∈ projectionStrings steps, ¬ IsWildcard s) ∧
    ((∀ q binds, owned.fragment.write q binds = view.fragment.write q binds) ↔
      ∀ s ∈ projectionStrings steps, ¬ IsWildcard s) := by
  intro owned view
  have hsame : (∀ s ∈ projectionStrings steps, ¬ IsWildcard s) → owned = view :=
    buildFrom_owned_of_not_isWildcard
  refine ⟨buildFrom_owned steps, fun q binds => ?_, ⟨fun h => ?_, fun h => ?_⟩,
    ⟨fun h => ?_, fun h q binds => ?_⟩⟩
  · show binds ++ owned.fragment.literals = binds ++ view.fragment.literals
    rw [literals_fragment, literals_fragment, literals_buildFrom_owned]
  · exact not_isWildcard_of_text_eq fun q => (write_of_beq h q .nil).1
  · rw [hsame h]
    exact BEq.rfl
  · exact not_isWildcard_of_text_eq fun q => congrArg Statement.text (h q [])
  · rw [hsame h]

/-- An owned star is a column of this name. -/
theorem buildFrom_star :
    let owned := buildFrom .owned [.projectOne "*"]
    let view := buildFrom .view [.projectOne "*"]
    (owned == view) = false ∧
      (owned.statement .whenNeeded).text = "SELECT \"*\"" ∧
      (view.statement .whenNeeded).text = "SELECT *" := by
  decide +kernel

end Select

end SqlSelect
