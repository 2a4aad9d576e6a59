import SqlSelect.Proofs.Reading.Meaning

/-!
# Combining conditions

Conditions are combined by `and`, `or` and `negate`, and by the filter calls of a statement. Joining
behind a group of its own kind extends the group, and joining behind anything else opens a new one,
so the shape of the result depends on all that was joined before. Its meaning does not: the result
has the tests of its parts from left to right, the value that the combination says, and it binds
what its parts bind.
-/

namespace SqlSelect

/-! ## Connectives -/

/-- The two ways of joining conditions. -/
inductive Connective where
  | and | or

namespace Connective

/-- A condition joined behind another. -/
def join : Connective → Condition → Condition → Condition
  | .and => Condition.and
  | .or => Condition.or

/-- The truth value of joined conditions. -/
def truth : Connective → Truth → Truth → Truth
  | .and => Truth.and
  | .or => Truth.or

/-- The truth value of a group without members. -/
def unit : Connective → Truth
  | .and => .true
  | .or => .false

/-- The group that joins its members. -/
def group : Connective → List Condition → Condition
  | .and => .all
  | .or => .any

/-- The members of a group of this kind; any other condition is one member. -/
def members : Connective → Condition → List Condition
  | .and, .all members => members
  | .or, .any members => members
  | _, c => [c]

theorem unit_truth (o : Connective) (t : Truth) : o.truth o.unit t = t := by
  cases o <;> cases t <;> rfl

theorem truth_unit (o : Connective) (t : Truth) : o.truth t o.unit = t := by
  cases o <;> cases t <;> rfl

theorem truth_assoc (o : Connective) (t u w : Truth) :
    o.truth (o.truth t u) w = o.truth t (o.truth u w) := by
  cases o <;> cases t <;> cases u <;> cases w <;> rfl

/-- Whatever stands on the left, a joined condition is a group whose last member is the right one.
-/
theorem join_eq_group (o : Connective) (c d : Condition) :
    o.join c d = o.group (o.members c ++ [d]) := by
  cases o <;> cases c <;> rfl

/-- The value of a group from the values of its members. -/
def valueOfMembers (o : Connective) (v : Nat → Truth) (first : Nat) : List Condition → Truth
  | [] => o.unit
  | c :: cs => o.truth (c.value v first) (o.valueOfMembers v (first + c.tests.length) cs)

theorem value_group (o : Connective) (v : Nat → Truth) (first : Nat) (cs : List Condition) :
    (o.group cs).value v first = o.valueOfMembers v first cs := by
  induction cs generalizing first with
  | nil => cases o <;> rfl
  | cons c cs ih =>
    rw [valueOfMembers, ← ih]
    cases o <;> rfl

theorem tests_group (o : Connective) (cs : List Condition) :
    (o.group cs).tests = cs.flatMap Condition.tests := by
  have htests : Condition.testsOfAll cs = cs.flatMap Condition.tests := by
    induction cs with
    | nil => rfl
    | cons c cs ih => rw [Condition.testsOfAll, ih, List.flatMap_cons]
  cases o <;> exact htests

theorem literals_group (o : Connective) (cs : List Condition) :
    (o.group cs).literals = cs.flatMap Condition.literals := by
  cases o <;> exact Condition.literalsOfAll_eq_flatMap cs

theorem valueOfMembers_append (o : Connective) (v : Nat → Truth) (first : Nat)
    (cs ds : List Condition) :
    o.valueOfMembers v first (cs ++ ds) =
      o.truth (o.valueOfMembers v first cs)
        (o.valueOfMembers v (first + (cs.flatMap Condition.tests).length) ds) := by
  induction cs generalizing first with
  | nil => exact (o.unit_truth _).symm
  | cons c cs ih =>
    rw [List.cons_append, valueOfMembers, ih, valueOfMembers, truth_assoc, List.flatMap_cons,
      List.length_append, Nat.add_assoc]

/-- A condition is the group of its members, or the one member that it has. -/
theorem group_members_or (o : Connective) (c : Condition) :
    c = o.group (o.members c) ∨ o.members c = [c] := by
  cases o <;> cases c <;> simp [members, group]

theorem tests_members (o : Connective) (c : Condition) :
    (o.members c).flatMap Condition.tests = c.tests := by
  rcases o.group_members_or c with h | h
  · rw [← tests_group o, ← h]
  · rw [h, List.flatMap_singleton]

theorem literals_members (o : Connective) (c : Condition) :
    (o.members c).flatMap Condition.literals = c.literals := by
  rcases o.group_members_or c with h | h
  · rw [← literals_group o, ← h]
  · rw [h, List.flatMap_singleton]

theorem valueOfMembers_members (o : Connective) (v : Nat → Truth) (first : Nat) (c : Condition) :
    o.valueOfMembers v first (o.members c) = c.value v first := by
  rcases o.group_members_or c with h | h
  · rw [← value_group, ← h]
  · rw [h, valueOfMembers, valueOfMembers, truth_unit]

theorem tests_join (o : Connective) (c d : Condition) :
    (o.join c d).tests = c.tests ++ d.tests := by
  rw [join_eq_group, tests_group, List.flatMap_append, tests_members, List.flatMap_singleton]

theorem literals_join (o : Connective) (c d : Condition) :
    (o.join c d).literals = c.literals ++ d.literals := by
  rw [join_eq_group, literals_group, List.flatMap_append, literals_members,
    List.flatMap_singleton]

/-- Joined conditions have the joined value, where the tests on the right are counted behind those
on the left. -/
theorem value_join (o : Connective) (v : Nat → Truth) (first : Nat) (c d : Condition) :
    (o.join c d).value v first =
      o.truth (c.value v first) (d.value v (first + c.tests.length)) := by
  rw [join_eq_group, value_group, valueOfMembers_append, valueOfMembers_members, tests_members,
    valueOfMembers, valueOfMembers, truth_unit]

end Connective

/-! ## Combinations -/

/-- Conditions, and the calls that combine them. -/
inductive Combination where
  | given (c : Condition)
  | join (left : Combination) (o : Connective) (right : Combination)
  | negate (denied : Combination)

namespace Combination

/-- The condition that the calls give. -/
def build : Combination → Condition
  | .given c => c
  | .join left o right => o.join left.build right.build
  | .negate denied => denied.build.negate

/-- The given conditions from left to right. -/
def parts : Combination → List Condition
  | .given c => [c]
  | .join left _ right => left.parts ++ right.parts
  | .negate denied => denied.parts

/-- What the calls say: the value of a combination whose tests have the values of `v` from `first`
on. -/
def value (v : Nat → Truth) (first : Nat) : Combination → Truth
  | .given c => c.value v first
  | .join left o right =>
    o.truth (left.value v first)
      (right.value v (first + (left.parts.flatMap Condition.tests).length))
  | .negate denied => (denied.value v first).not

/-- A condition realizes a combination if it has the tests of the parts in order, the value of the
combination whatever the values of the tests are, and binds behind any values what the parts bind by
themselves. -/
structure Realizes (t : Combination) (c : Condition) : Prop where
  tests : c.tests = t.parts.flatMap Condition.tests
  value : ∀ v first, c.value v first = t.value v first
  binds : ∀ q binds, (c.fragment.write q binds).binds =
    binds ++ t.parts.flatMap fun part => (part.fragment.write q []).binds

theorem tests_build (t : Combination) : t.build.tests = t.parts.flatMap Condition.tests := by
  induction t with
  | given c => exact (List.flatMap_singleton _ _).symm
  | join left o right ihl ihr =>
    rw [build, Connective.tests_join, ihl, ihr, parts, List.flatMap_append]
  | negate denied ih => exact ih

theorem literals_build (t : Combination) :
    t.build.literals = t.parts.flatMap Condition.literals := by
  induction t with
  | given c => exact (List.flatMap_singleton _ _).symm
  | join left o right ihl ihr =>
    rw [build, Connective.literals_join, ihl, ihr, parts, List.flatMap_append]
  | negate denied ih => exact ih

theorem value_build (t : Combination) (v : Nat → Truth) (first : Nat) :
    t.build.value v first = t.value v first := by
  induction t generalizing first with
  | given c => rfl
  | join left o right ihl ihr =>
    rw [build, Connective.value_join, ihl, ihr, tests_build, value]
  | negate denied ih => exact congrArg Truth.not (ih first)

theorem realizes_build (t : Combination) : t.Realizes t.build where
  tests := t.tests_build
  value := t.value_build
  binds q binds := by
    rw [Fragment.write, Condition.literals_fragment, literals_build]
    refine congrArg _ (List.flatMap_congr fun part _ => ?_)
    rw [Fragment.write, Condition.literals_fragment, List.nil_append]

/-- Conditions joined one after another on the left: the first is taken as it is, and each of the
others is joined behind all before it. -/
def inTurn? : List (Connective × Condition) → Option Combination
  | [] => none
  | (_, c) :: rest =>
    some (rest.foldl (fun before call => before.join call.1 (.given call.2)) (.given c))

theorem inTurn?_append (calls : List (Connective × Condition)) (o : Connective) (c : Condition) :
    inTurn? (calls ++ [(o, c)]) =
      some ((inTurn? calls).elim (.given c) fun before => before.join o (.given c)) := by
  cases calls with
  | nil => rfl
  | cons call rest =>
    rw [List.cons_append, inTurn?, inTurn?, List.foldl_append]
    rfl

theorem inTurn?_eq_none_iff (calls : List (Connective × Condition)) :
    inTurn? calls = none ↔ calls = [] := by
  cases calls <;> simp [inTurn?]

end Combination

/-! ## The condition of a statement -/

namespace Select

/-- The condition that a step joins, and how. -/
def Step.joined? : Step → Option (Connective × Condition)
  | .filter c => some (.and, c)
  | .orFilter c => some (.or, c)
  | _ => none

/-- A step joins its condition behind the present one; a step without a condition leaves it alone.
-/
theorem condition_apply (s : Select) (step : Step) :
    (s.apply step).condition = step.joined?.elim s.condition fun call =>
      some (s.condition.elim call.2 fun current => call.1.join current call.2) := by
  obtain ⟨_, _, _, _, condition, _, _, _, _⟩ := s
  cases step <;> cases condition <;> rfl

/-- The condition of a statement is the combination of its filter calls in turn, whatever other
steps stand between them. -/
theorem condition_build (steps : List Step) :
    (build steps).condition =
      (Combination.inTurn? (steps.filterMap Step.joined?)).map Combination.build := by
  induction steps using List.reverseRecOn with
  | nil => rfl
  | append_singleton steps step ih =>
    rw [build_append, condition_apply, ih, List.filterMap_append]
    cases h : step.joined? with
    | none => simp [h]
    | some call =>
      have hcall : List.filterMap Step.joined? [step] = [(call.1, call.2)] := by simp [h]
      rw [hcall, Combination.inTurn?_append]
      cases Combination.inTurn? (steps.filterMap Step.joined?) <;> rfl

end Select

/-- What is combined means what the calls say. Every combination is realized by the condition that
its calls build. The condition of a statement is what the filter calls among its steps build in
turn; there is none exactly if there is no such call. -/
theorem combined_condition_realizes :
    (∀ t : Combination, t.Realizes t.build) ∧
    ∀ steps : List Select.Step,
      let calls := steps.filterMap Select.Step.joined?
      ((Select.build steps).condition = none ↔ calls = []) ∧
      ∀ c ∈ (Select.build steps).condition,
        ∃ t ∈ Combination.inTurn? calls, t.Realizes c := by
  refine ⟨Combination.realizes_build, fun steps => ?_⟩
  intro calls
  have hcondition := Select.condition_build steps
  refine ⟨?_, fun c hc => ?_⟩
  · rw [hcondition, Option.map_eq_none_iff, Combination.inTurn?_eq_none_iff]
  · rw [hcondition] at hc
    obtain ⟨t, ht, rfl⟩ := Option.map_eq_some_iff.mp hc
    exact ⟨t, ht, t.realizes_build⟩

end SqlSelect
