import SqlSelect.Proofs.Binding.Agreement
import SqlSelect.Proofs.Reading.Condition

/-!
# The meaning of conditions

A condition is true, false or unknown, once each of its tests is. Connectives are those of Kleene:
conjunctions take the least value of their members and disjunctions the greatest, where unknown
stands between false and true. The text of a condition is read as a formula of the same tests, in
the same order, with the same value.
-/

namespace SqlSelect

open Fragment

/-- A truth value of SQL. -/
inductive Truth where
  | false | unknown | true
deriving DecidableEq

namespace Truth

/-- True if both are, false if one is. -/
def and : Truth → Truth → Truth
  | .false, _ => .false
  | _, .false => .false
  | .unknown, _ => .unknown
  | _, .unknown => .unknown
  | .true, .true => .true

/-- True if one is, false if both are. -/
def or : Truth → Truth → Truth
  | .true, _ => .true
  | _, .true => .true
  | .unknown, _ => .unknown
  | _, .unknown => .unknown
  | .false, .false => .false

/-- False if it is true and the other way round. -/
def not : Truth → Truth
  | .false => .true
  | .unknown => .unknown
  | .true => .false

theorem and_true (t : Truth) : t.and .true = t := by
  cases t <;> rfl

theorem or_false (t : Truth) : t.or .false = t := by
  cases t <;> rfl

end Truth

/-! ## The value of a formula -/

namespace Formula

mutual

/-- The texts of the tests of a formula in order. -/
def texts : Formula → List String
  | .true => []
  | .false => []
  | .atom _ text => [String.ofList text]
  | .not f => f.texts
  | .all members => textsOfAll members
  | .any members => textsOfAll members

/-- The texts of the tests of formulas in order. -/
def textsOfAll : List Formula → List String
  | [] => []
  | f :: fs => f.texts ++ textsOfAll fs

end

mutual

/-- The value of a formula whose tests have the values of `v` from `first` on. -/
def value (v : Nat → Truth) (first : Nat) : Formula → Truth
  | .true => .true
  | .false => .false
  | .atom _ _ => v first
  | .not f => (f.value v first).not
  | .all members => valueOfAll v first members
  | .any members => valueOfAny v first members

/-- The value of a conjunction. -/
def valueOfAll (v : Nat → Truth) (first : Nat) : List Formula → Truth
  | [] => .true
  | f :: fs => (f.value v first).and (valueOfAll v (first + f.texts.length) fs)

/-- The value of a disjunction. -/
def valueOfAny (v : Nat → Truth) (first : Nat) : List Formula → Truth
  | [] => .false
  | f :: fs => (f.value v first).or (valueOfAny v (first + f.texts.length) fs)

end

theorem texts_conjunction (fs : List Formula) : (conjunction fs).texts = textsOfAll fs := by
  rcases fs with _ | ⟨f, _ | ⟨g, fs⟩⟩
  · rfl
  · exact (List.append_nil f.texts).symm
  · rfl

theorem texts_disjunction (fs : List Formula) : (disjunction fs).texts = textsOfAll fs := by
  rcases fs with _ | ⟨f, _ | ⟨g, fs⟩⟩
  · rfl
  · exact (List.append_nil f.texts).symm
  · rfl

theorem value_conjunction (v : Nat → Truth) (first : Nat) (fs : List Formula) :
    (conjunction fs).value v first = valueOfAll v first fs := by
  rcases fs with _ | ⟨f, _ | ⟨g, fs⟩⟩
  · rfl
  · exact (Truth.and_true _).symm
  · rfl

theorem value_disjunction (v : Nat → Truth) (first : Nat) (fs : List Formula) :
    (disjunction fs).value v first = valueOfAny v first fs := by
  rcases fs with _ | ⟨f, _ | ⟨g, fs⟩⟩
  · rfl
  · exact (Truth.or_false _).symm
  · rfl

end Formula

/-! ## The value of a condition -/

namespace Condition

mutual

/-- The tests of a condition in order. Membership in an empty list is a constant and no test. -/
def tests : Condition → List Condition
  | .all members => testsOfAll members
  | .any members => testsOfAll members
  | .not c => c.tests
  | .inList _ [] _ => []
  | .inList e (x :: xs) negated => [.inList e (x :: xs) negated]
  | .compare left op right => [.compare left op right]
  | .isNull e negated => [.isNull e negated]
  | .like e pattern negated ignoreCase => [.like e pattern negated ignoreCase]

/-- The tests of conditions in order. -/
def testsOfAll : List Condition → List Condition
  | [] => []
  | c :: cs => c.tests ++ testsOfAll cs

end

mutual

/-- The value of a condition whose tests have the values of `v` from `first` on. Nothing is in an
empty list. -/
def value (v : Nat → Truth) (first : Nat) : Condition → Truth
  | .all members => valueOfAll v first members
  | .any members => valueOfAny v first members
  | .not c => (c.value v first).not
  | .inList _ [] negated => if negated then .true else .false
  | .inList _ (_ :: _) _ => v first
  | .compare _ _ _ => v first
  | .isNull _ _ => v first
  | .like _ _ _ _ => v first

/-- The value of a conjunction: true without members. -/
def valueOfAll (v : Nat → Truth) (first : Nat) : List Condition → Truth
  | [] => .true
  | c :: cs => (c.value v first).and (valueOfAll v (first + c.tests.length) cs)

/-- The value of a disjunction: false without members. -/
def valueOfAny (v : Nat → Truth) (first : Nat) : List Condition → Truth
  | [] => .false
  | c :: cs => (c.value v first).or (valueOfAny v (first + c.tests.length) cs)

end

theorem tests_of_isTest {c : Condition} (h : c.isTest = true) : c.tests = [c] := by
  cases c with
  | inList e list negated =>
    cases list with
    | nil => cases h
    | cons x xs => rfl
  | all | any | not => cases h
  | _ => rfl

/-- All literals of a condition stand in its tests. -/
theorem flatMap_literals_tests (c : Condition) :
    (c.tests.map fragment).flatMap Fragment.literals = c.literals := by
  have hmembers : ∀ cs : List Condition,
      (∀ c ∈ cs, (c.tests.map fragment).flatMap Fragment.literals = c.literals) →
      ((testsOfAll cs).map fragment).flatMap Fragment.literals = literalsOfAll cs := by
    intro cs ih
    induction cs with
    | nil => rfl
    | cons c cs ihcs =>
      have hc := ih c List.mem_cons_self
      have hcs := ihcs fun d hd => ih d (List.mem_cons_of_mem c hd)
      rw [testsOfAll, List.map_append, List.flatMap_append, hc, hcs, literalsOfAll]
  have htest : ∀ c : Condition, c.isTest = true →
      (c.tests.map fragment).flatMap Fragment.literals = c.literals := by
    intro c hc
    rw [tests_of_isTest hc, List.map_singleton, List.flatMap_singleton, literals_fragment]
  induction c with
  | all members ih => exact hmembers members ih
  | any members ih => exact hmembers members ih
  | not c ih => exact ih
  | inList e list negated =>
    cases list with
    | nil => rfl
    | cons x xs => exact htest _ rfl
  | _ => exact htest _ rfl

/-! ## The formula has the texts and the value of the condition -/

/-- The tests of the formula are the tests of the condition, each with the text that it has behind
those before it. -/
theorem texts_formula (q : Quoting) (c : Condition) (binds : List Value) :
    (c.formula q binds.length).texts = writeEach q binds (c.tests.map fragment) := by
  -- each member is written behind the values of those before it, which are those of their tests
  have hmembers : ∀ cs : List Condition, (∀ c ∈ cs, ∀ binds : List Value,
      (c.formula q binds.length).texts = writeEach q binds (c.tests.map fragment)) →
      ∀ binds : List Value, Formula.textsOfAll (formulas q binds.length cs) =
        writeEach q binds ((testsOfAll cs).map fragment) := by
    intro cs ih
    induction cs with
    | nil => exact fun _ => rfl
    | cons c cs ihcs =>
      intro binds
      have hc := ih c List.mem_cons_self binds
      have hcs := ihcs (fun d hd => ih d (List.mem_cons_of_mem c hd)) (binds ++ c.literals)
      rw [List.length_append] at hcs
      rw [formulas, Formula.textsOfAll, hc, hcs, testsOfAll, List.map_append, writeEach_append,
        flatMap_literals_tests]
  have htest : ∀ c : Condition, c.isTest = true → ∀ binds : List Value,
      (c.formula q binds.length).texts = writeEach q binds (c.tests.map fragment) := by
    intro c hc binds
    rw [formula_of_isTest hc, tests_of_isTest hc]
    rfl
  induction c generalizing binds with
  | all members ih =>
    rw [formula, Formula.texts_conjunction]
    exact hmembers members ih binds
  | any members ih =>
    rw [formula, Formula.texts_disjunction]
    exact hmembers members ih binds
  | not c ih => exact ih binds
  | inList e list negated =>
    cases list with
    | nil => cases negated <;> rfl
    | cons x xs => exact htest _ rfl binds
  | _ => exact htest _ rfl binds

theorem length_texts_formula (q : Quoting) (bound : Nat) (c : Condition) :
    (c.formula q bound).texts.length = c.tests.length := by
  have htexts := c.texts_formula q (List.replicate bound .null)
  rw [List.length_replicate] at htexts
  rw [htexts, length_writeEach, List.length_map]

theorem value_formula (q : Quoting) (v : Nat → Truth) (c : Condition) (bound first : Nat) :
    (c.formula q bound).value v first = c.value v first := by
  induction c generalizing bound first with
  | all members ih =>
    rw [formula, Formula.value_conjunction, value]
    -- formula and condition count the same tests, so they go on with the same values
    induction members generalizing bound first with
    | nil => rfl
    | cons c cs ihcs =>
      rw [formulas, Formula.valueOfAll, valueOfAll, ih c List.mem_cons_self, length_texts_formula,
        ihcs fun d hd => ih d (List.mem_cons_of_mem c hd)]
  | any members ih =>
    rw [formula, Formula.value_disjunction, value]
    induction members generalizing bound first with
    | nil => rfl
    | cons c cs ihcs =>
      rw [formulas, Formula.valueOfAny, valueOfAny, ih c List.mem_cons_self, length_texts_formula,
        ihcs fun d hd => ih d (List.mem_cons_of_mem c hd)]
  | not c ih => rw [formula, Formula.value, value, ih]
  | inList e list negated =>
    cases list with
    | nil => cases negated <;> rfl
    | cons x xs => rfl
  | _ => rfl

/-- The text of a condition that calls functions of bare names is read to its end. The tests in what
is read are written in the texts of the condition's tests, in order, each behind the values of those
before it; and whatever the values of the tests are, the value is that of the condition. -/
theorem read?_fragment {c : Condition} (h : AllBare c.functions) {q : Quoting} (hq : q ≠ .never)
    (binds : List Value) :
    ∃ f : Formula, (c.fragment.write q binds).read? Reader.formula = some f ∧
      f.texts = writeEach q binds (c.tests.map fragment) ∧
      ∀ v : Nat → Truth, f.value v 0 = c.value v 0 := by
  have hback : c.ReadsBack q (boundValue? (binds ++ c.fragment.literals)) := readsBack h
  have hreads := hback.2 c.fragment.length (Nat.le_refl _)
  exact ⟨c.formula q binds.length,
    Statement.read?_write hq (readable_fragment h.allPlain) binds hreads,
    c.texts_formula q binds, fun v => c.value_formula q v binds.length 0⟩

theorem read?_fragment_nested :
    ∃ f : Formula,
      Statement.read? Reader.formula
        ⟨"(a = $2 OR lower(b) IS NULL) AND NOT (FALSE)", [.null, .bool true]⟩ = some f ∧
      f.texts = ["a = $2", "lower(b) IS NULL"] ∧
      ∀ v : Nat → Truth, f.value v 0 = ((v 0).or (v 1)).and .true := by
  have hbare : AllBare ["lower"] := List.forall_mem_singleton.mpr (by decide)
  obtain ⟨f, hread, htexts, hvalue⟩ := read?_fragment
    (c := .all [
      .any [.compare (.column ⟨none, "a"⟩) .equal (.literal (.bool true)),
        .isNull (.call "lower" [.column ⟨none, "b"⟩]) false],
      .not (.inList (.literal .null) [] false)])
    hbare (q := .whenNeeded) (by decide) [.null]
  refine ⟨f, hread, htexts, fun v => (hvalue v).trans ?_⟩
  show ((v 0).or ((v 1).or .false)).and (Truth.true.and .true) = _
  rw [Truth.or_false]
  rfl

end Condition

end SqlSelect
