import SqlSelect.Proofs.Reading.Refusal
import SqlSelect.Proofs.Reading.Test

/-!
# Reading conditions

A condition is read with the usual precedences: parentheses bind tightest, then comparisons and the
other tests of values, then `NOT`, then `AND`, and `OR` last. A parenthesis may open an expression
or a condition; the reader tries the former first, which fails on every condition in parentheses
(`Condition.fails_operand`).
-/

namespace SqlSelect

open Reader Fragment

/-- What is read from the text of a condition: tests of values with their texts, joined by `NOT`,
`AND` and `OR`. -/
inductive Formula where
  | true
  | false
  | atom (test : Condition) (text : List Char)
  | not (f : Formula)
  | all (members : List Formula)
  | any (members : List Formula)

namespace Formula

/-- Formulas with `AND` between them. One formula is itself. -/
def conjunction : List Formula → Formula
  | [] => .true
  | [f] => f
  | fs => .all fs

/-- Formulas with `OR` between them. One formula is itself. -/
def disjunction : List Formula → Formula
  | [] => .false
  | [f] => f
  | fs => .any fs

end Formula

/-! ## Readers -/

namespace Reader

/-- Read a test together with its text. -/
def atom (operand : Reader Expr) (limit : Nat) : Reader Formula := do
  let r ← withSource (test operand limit)
  return .atom r.1 r.2

/-- Read formulas with `AND` between them, and those with `OR` between them. -/
def disjunction (member : Reader Formula) (limit : Nat) : Reader Formula := do
  let fs ← separated (.keyword .or)
    (do
      let fs ← separated (.keyword .and) member limit
      return .conjunction fs) limit
  return .disjunction fs

/-- Read a constant, a test, something denied or something in parentheses, nested at most `depth`
deep. -/
def member (lookup : Nat → Option Value) : Nat → Reader Formula
  | 0 => failure
  | depth + 1 => do
    match ← accept (.keyword .not) with
    | true =>
      let f ← member lookup depth
      return .not f
    | false =>
      match ← accept (.keyword .true) with
      | true => return .true
      | false =>
        match ← accept (.keyword .false) with
        | true => return .false
        | false =>
          atom (expr lookup (depth + 1)) (depth + 1) <|>
            parenthesised (disjunction (member lookup depth) (depth + 1))

/-- Read a condition that is nested at most `depth` deep. -/
def formula (lookup : Nat → Option Value) (depth : Nat) : Reader Formula :=
  disjunction (member lookup depth) (depth + 1)

end Reader

/-! ## The formula of a condition -/

namespace Condition

mutual

/-- The formula that is read from a condition behind `bound` bound values. -/
def formula (q : Quoting) (bound : Nat) : Condition → Formula
  | .all members => .conjunction (formulas q bound members)
  | .any members => .disjunction (formulas q bound members)
  | .not c => .not (c.formula q bound)
  | .inList _ [] negated => if negated then .true else .false
  | .inList e (x :: xs) negated =>
    .atom (.inList e (x :: xs) negated) ((inList e (x :: xs) negated).fragment.chars q bound)
  | .compare left op right =>
    .atom (.compare left op right) ((compare left op right).fragment.chars q bound)
  | .isNull e negated => .atom (.isNull e negated) ((isNull e negated).fragment.chars q bound)
  | .like e pattern negated ignoreCase =>
    .atom (.like e pattern negated ignoreCase)
      ((like e pattern negated ignoreCase).fragment.chars q bound)

/-- The formulas of conditions that are written one after another. -/
def formulas (q : Quoting) (bound : Nat) : List Condition → List Formula
  | [] => []
  | c :: cs => c.formula q bound :: formulas q (bound + c.literals.length) cs

end

theorem formulas_eq_valuesAt (q : Quoting) (bound : Nat) (cs : List Condition) :
    formulas q bound cs = valuesAt memberFragment (fun c bound => c.formula q bound) bound cs := by
  induction cs generalizing bound with
  | nil => rfl
  | cons c cs ih =>
    rw [formulas, ih, valuesAt, literals_memberFragment, literals_fragment]

theorem formula_of_isTest {c : Condition} (h : c.isTest = true) (q : Quoting) (bound : Nat) :
    c.formula q bound = .atom c (c.fragment.chars q bound) := by
  cases c with
  | inList e list negated =>
    cases list with
    | nil => cases h
    | cons x xs => rfl
  | all | any | not => cases h
  | _ => rfl

end Condition

/-! ## A condition in parentheses is no expression -/

section

variable {q : Quoting} {lookup : Nat → Option Value}

/-- An operand with an operation behind it. -/
def Reader.operand (lookup : Nat → Option Value) (depth : Nat) : Reader Arithmetic :=
  Reader.expr lookup depth >>= fun _ => arithmetic

/-- A keyword other than `NULL` starts no expression. -/
theorem fails_expr_keyword {k : Keyword} (hk : k ≠ .null) (depth : Nat) (g : Fragment) :
    Fails q lookup (Reader.expr lookup depth) (.keyword k :: g) [] := by
  cases depth with
  | zero => exact fails_failure _ _
  | succ depth =>
    refine Fails.token rfl (fun _ => rfl) ?_
    cases k with
    | null => exact absurd rfl hk
    | _ => exact fails_failure g _

theorem fails_arithmetic {p : Piece} {t : Token} (hp : p.literal? = none)
    (ht : ∀ bound, p.token? bound = some t) (hnone : arithmetic? t = none) (g : Fragment) :
    Fails q lookup Reader.arithmetic (.space :: p :: g) [] := by
  refine Fails.space (Fails.token hp ht ?_)
  rw [hnone]
  exact fails_failure g _

/-- If no operand with an operation can be read in parentheses, no expression can. -/
theorem fails_expr_parenthesised {f : Fragment} {depth : Nat}
    (h : Fails q lookup (Reader.operand lookup depth) f []) :
    Fails q lookup (Reader.expr lookup (depth + 1)) (Fragment.parenthesised f) [] :=
  Fails.token rfl (fun _ => rfl) (Fails.append (Fails.bind_bind h _) _ _)

/-- From a test no operand with an operation behind it can be read: behind its operand stands a word
of its own. -/
theorem Condition.fails_operand_test {c : Condition} (htest : c.isTest = true)
    (h : AllBare c.functions) {depth : Nat} (hdepth : c.fragment.length ≤ depth) :
    Fails q lookup (Reader.operand lookup depth) c.fragment [] := by
  obtain ⟨e, p, g, t, hc, he, hp, ht, hnone, hstop⟩ := c.exists_fragment_eq_append htest h
  rw [hc, List.length_append] at hdepth
  rw [hc]
  refine Reads.bind_fails (e.reads_fragment he (by omega)) (fails_arithmetic hp ht hnone g) ?_
  exact leads_space (leads_token fun bound => ⟨t, ht bound, hstop⟩)

/-- What holds of every member of a group holds of the group, which starts with a member. -/
theorem fails_operand_group {members : List Condition} {separator : Fragment} {depth : Nat}
    (hnil : members ≠ [])
    (ih : ∀ c ∈ members, ∀ depth, c.fragment.length ≤ depth →
      Fails q lookup (Reader.operand lookup depth) c.fragment [])
    (hdepth : (joined separator (Condition.memberFragments members)).length ≤ depth) :
    Fails q lookup (Reader.operand lookup depth)
      (joined separator (Condition.memberFragments members)) [] := by
  obtain ⟨c, cs, rfl⟩ := List.exists_cons_of_ne_nil hnil
  have hc := ih c List.mem_cons_self
  obtain ⟨g, hg⟩ := exists_joined_cons_eq_append separator (Condition.memberFragment c)
    (Condition.memberFragments cs)
  have hsplit : joined separator (Condition.memberFragments (c :: cs)) =
      Condition.memberFragment c ++ g := hg
  rw [hsplit, List.length_append] at hdepth
  rw [hsplit]
  -- what is refused at the first member is refused whatever members follow
  refine Fails.append ?_ g []
  unfold Condition.memberFragment at hdepth ⊢
  by_cases hgroup : c.isGroup = true
  · rw [if_pos hgroup, length_parenthesised] at hdepth
    rw [if_pos hgroup]
    obtain ⟨depth, rfl⟩ : ∃ n, depth = n + 1 := Nat.exists_eq_succ_of_ne_zero (by omega)
    exact (fails_expr_parenthesised (hc depth (by omega))).bind _
  · rw [if_neg hgroup] at hdepth ⊢
    exact hc depth (by omega)

/-- From a condition no operand with an operation behind it can be read: a constant or a denial
starts with a keyword, and a group starts with a member. -/
theorem Condition.fails_operand {c : Condition} (h : AllBare c.functions) {depth : Nat}
    (hdepth : c.fragment.length ≤ depth) :
    Fails q lookup (Reader.operand lookup depth) c.fragment [] := by
  have hkeyword : ∀ {k : Keyword}, k ≠ .null → ∀ (depth : Nat) (g : Fragment),
      Fails q lookup (Reader.operand lookup depth) (.keyword k :: g) [] :=
    fun hk depth g => (fails_expr_keyword hk depth g).bind _
  have hmember : ∀ {members : List Condition}, AllBare (functionsOfAll members) →
      ∀ c ∈ members, AllBare c.functions :=
    fun h c hc f hf => h f (mem_functionsOfAll hc hf)
  induction c generalizing depth with
  | all members ih =>
    cases members with
    | nil => exact hkeyword (by decide) depth []
    | cons c cs =>
      refine fails_operand_group (List.cons_ne_nil c cs) (fun d hd depth hle => ?_) hdepth
      exact ih d hd (hmember h d hd) hle
  | any members ih =>
    cases members with
    | nil => exact hkeyword (by decide) depth []
    | cons c cs =>
      refine fails_operand_group (List.cons_ne_nil c cs) (fun d hd depth hle => ?_) hdepth
      exact ih d hd (hmember h d hd) hle
  | not c ih => exact hkeyword (by decide) depth _
  | inList e list negated =>
    cases list with
    | nil => cases negated <;> exact hkeyword (by decide) depth []
    | cons x xs => exact fails_operand_test rfl h hdepth
  | _ => exact fails_operand_test rfl h hdepth

/-! ## Conditions are read back -/

/-- What a condition would go on with. -/
def formulaStops : List Token := .keyword .or :: .keyword .and :: exprStops

theorem Fails.withSource {α : Type} {r : Reader α} {f : Fragment} {stops : List Token}
    (h : Fails q lookup r f stops) : Fails q lookup (Reader.withSource r) f stops := by
  intro bound hvalues rest hrest
  rw [Reader.withSource, h bound hvalues rest hrest]
  rfl

/-- Members with `AND` between them are read as their conjunction. -/
theorem readsAt_conjunction {member : Reader Formula} {limit : Nat} {cs : List Condition}
    (hnil : cs ≠ []) (hlimit : cs.length ≤ limit)
    (h : ∀ c ∈ cs, ReadsAt q lookup member (Condition.memberFragment c)
      (fun bound => c.formula q bound) exprStops) :
    ReadsAt q lookup
      (do
        let fs ← Reader.separated (.keyword .and) member limit
        return Formula.conjunction fs)
      (joined [.space, .keyword .and, .space] (Condition.memberFragments cs))
      (fun bound => .conjunction (Condition.formulas q bound cs)) (.keyword .and :: exprStops) := by
  rw [Condition.memberFragments_eq_map]
  simp only [Condition.formulas_eq_valuesAt]
  exact (readsAt_separated (isSeparator_keyword .and) (by decide) hnil hlimit h).map _

/-- A single member is read as a conjunction of one. -/
theorem ReadsAt.conjunction_one {member : Reader Formula} {f : Fragment} {value : Nat → Formula}
    (h : ReadsAt q lookup member f value exprStops) (limit : Nat) :
    ReadsAt q lookup
      (do
        let fs ← Reader.separated (.keyword .and) member (limit + 1)
        return Formula.conjunction fs) f value (.keyword .and :: exprStops) :=
  (h.separated_one (.keyword .and) limit).map Formula.conjunction

/-- Members with `OR` between them are read as their disjunction, each as a conjunction of one. -/
theorem readsAt_disjunction {member : Reader Formula} {limit : Nat} {cs : List Condition}
    (hnil : cs ≠ []) (hlimit : cs.length ≤ limit + 1)
    (h : ∀ c ∈ cs, ReadsAt q lookup member (Condition.memberFragment c)
      (fun bound => c.formula q bound) exprStops) :
    ReadsAt q lookup (Reader.disjunction member (limit + 1))
      (joined [.space, .keyword .or, .space] (Condition.memberFragments cs))
      (fun bound => .disjunction (Condition.formulas q bound cs)) formulaStops := by
  rw [Condition.memberFragments_eq_map]
  simp only [Condition.formulas_eq_valuesAt]
  exact (readsAt_separated (isSeparator_keyword .or) (by decide) hnil hlimit
    fun c hc => (h c hc).conjunction_one limit).map _

/-- A conjunction is read as a disjunction of one. -/
theorem ReadsAt.disjunction_one {member : Reader Formula} {f : Fragment} {value : Nat → Formula}
    {limit : Nat}
    (h : ReadsAt q lookup
      (do
        let fs ← Reader.separated (.keyword .and) member (limit + 1)
        return Formula.conjunction fs) f value (.keyword .and :: exprStops)) :
    ReadsAt q lookup (Reader.disjunction member (limit + 1)) f value formulaStops :=
  (h.separated_one (.keyword .or) limit).map Formula.disjunction

/-- What is read as a condition is read in parentheses as a member: no test starts so. -/
theorem Condition.readsAt_parenthesised {c : Condition} (h : AllBare c.functions) {depth : Nat}
    (hdepth : c.fragment.length ≤ depth)
    (hc : ReadsAt q lookup (Reader.formula lookup depth) c.fragment (fun bound => c.formula q bound)
      formulaStops) :
    ReadsAt q lookup (Reader.member lookup (depth + 1)) (Fragment.parenthesised c.fragment)
      (fun bound => c.formula q bound) exprStops := by
  have hparen := hc.parenthesised (by decide)
  -- a test would start with an expression in these parentheses
  have hfails : Fails q lookup (Reader.expr lookup (depth + 1))
      (Fragment.parenthesised c.fragment) [] :=
    fails_expr_parenthesised (c.fails_operand h hdepth)
  refine ReadsAt.not_accept ?_ (leads_symbol (by decide))
  refine ReadsAt.not_accept ?_ (leads_symbol (by decide))
  refine ReadsAt.not_accept ?_ (leads_symbol (by decide))
  exact (ReadsAt.orElse (Fails.bind (Fails.withSource (hfails.bind _)) _) hparen).mono
    (List.nil_subset _)

/-- A test is read as a member. -/
theorem Condition.readsAt_test {c : Condition} (htest : c.isTest = true) (h : AllBare c.functions)
    {depth : Nat} (hdepth : c.fragment.length ≤ depth + 1) :
    ReadsAt q lookup (Reader.member lookup (depth + 1)) c.fragment
      (fun bound => c.formula q bound) exprStops := by
  have hleads : ∀ k : Keyword, Token.startsExpr (.keyword k) = false →
      Leads q [.keyword k] c.fragment exprStops := by
    intro k hk
    obtain ⟨e, p, g, t, hc, he, -⟩ := c.exists_fragment_eq_append htest h
    rw [hc]
    refine e.leads_fragment he (fun t ht => ?_) _
    rw [List.mem_singleton.mp ht]
    exact hk
  have htext : ReadsAt q lookup (Reader.withSource
      (Reader.test (Reader.expr lookup (depth + 1)) (depth + 1))) c.fragment
      (fun bound => (c, c.fragment.chars q bound)) exprStops :=
    (c.reads_test htest h hdepth).withSource (c.tight_fragment htest)
  simp only [c.formula_of_isTest htest]
  -- a test starts with an expression, so with none of the three words that are tried before
  refine ReadsAt.not_accept ?_ (hleads .not rfl)
  refine ReadsAt.not_accept ?_ (hleads .true rfl)
  refine ReadsAt.not_accept ?_ (hleads .false rfl)
  exact ReadsAt.orElse_left (htext.map fun r => Formula.atom r.1 r.2) _

theorem reads_true (depth : Nat) :
    Reads q lookup (Reader.member lookup (depth + 1)) [.keyword .true] .true exprStops :=
  ReadsAt.not_accept (ReadsAt.accept rfl (fun _ => rfl) ReadsAt.pure) (leads_keyword (by decide))

theorem reads_false (depth : Nat) :
    Reads q lookup (Reader.member lookup (depth + 1)) [.keyword .false] .false exprStops := by
  refine ReadsAt.not_accept ?_ (leads_keyword (by decide))
  refine ReadsAt.not_accept ?_ (leads_keyword (by decide))
  exact ReadsAt.accept rfl (fun _ => rfl) ReadsAt.pure

/-- A condition is read back as a member of a group, with the parentheses that it has there, and by
itself. -/
def Condition.ReadsBack (q : Quoting) (lookup : Nat → Option Value) (c : Condition) : Prop :=
  (∀ depth, (memberFragment c).length ≤ depth →
    ReadsAt q lookup (Reader.member lookup depth) (memberFragment c)
      (fun bound => c.formula q bound) exprStops) ∧
  ∀ depth, c.fragment.length ≤ depth →
    ReadsAt q lookup (Reader.formula lookup depth) c.fragment (fun bound => c.formula q bound)
      formulaStops

namespace Condition

/-- A group stands in parentheses where it is a member. -/
theorem ReadsBack.of_isGroup {c : Condition} (hgroup : c.isGroup = true)
    (h : AllBare c.functions)
    (hc : ∀ depth, c.fragment.length ≤ depth → ReadsAt q lookup (Reader.formula lookup depth)
      c.fragment (fun bound => c.formula q bound) formulaStops) : c.ReadsBack q lookup := by
  refine ⟨fun depth hdepth => ?_, hc⟩
  rw [memberFragment, if_pos hgroup] at hdepth ⊢
  rw [length_parenthesised] at hdepth
  obtain ⟨depth, rfl⟩ : ∃ n, depth = n + 1 := Nat.exists_eq_succ_of_ne_zero (by omega)
  exact readsAt_parenthesised h (by omega) (hc depth (by omega))

/-- What is no group is written alike as a member and by itself. -/
theorem ReadsBack.of_not_isGroup {c : Condition} (hgroup : c.isGroup = false)
    (hnil : c.fragment ≠ [])
    (hc : ∀ depth, c.fragment.length ≤ depth + 1 → ReadsAt q lookup
      (Reader.member lookup (depth + 1)) c.fragment (fun bound => c.formula q bound) exprStops) :
    c.ReadsBack q lookup := by
  have hmember : ∀ depth, c.fragment.length ≤ depth → ReadsAt q lookup
      (Reader.member lookup depth) c.fragment (fun bound => c.formula q bound) exprStops := by
    intro depth hdepth
    have hpos : 0 < c.fragment.length := List.length_pos_iff.mpr hnil
    obtain ⟨depth, rfl⟩ : ∃ n, depth = n + 1 := Nat.exists_eq_succ_of_ne_zero (by omega)
    exact hc depth hdepth
  constructor
  · intro depth hdepth
    rw [memberFragment, if_neg (Bool.eq_false_iff.mp hgroup)] at hdepth ⊢
    exact hmember depth hdepth
  · intro depth hdepth
    exact ((hmember depth hdepth).conjunction_one depth).disjunction_one

theorem fragment_ne_nil_of_isTest {c : Condition} (htest : c.isTest = true)
    (h : AllBare c.functions) : c.fragment ≠ [] := by
  obtain ⟨e, p, g, t, hc, -⟩ := c.exists_fragment_eq_append htest h
  rw [hc]
  exact List.append_ne_nil_of_right_ne_nil _ (List.cons_ne_nil _ _)

/-- Members of a group are as many as it has pieces at most, and none is longer than it. -/
theorem length_members_le {k : Keyword} {cs : List Condition} {depth : Nat}
    (h : (joined [.space, .keyword k, .space] (memberFragments cs)).length ≤ depth) :
    cs.length ≤ depth + 1 ∧ ∀ c ∈ cs, (memberFragment c).length ≤ depth := by
  rw [memberFragments_eq_map] at h
  exact length_items_le (isSeparator_keyword k) h

/-- Every condition that calls functions of bare names is read back. -/
theorem readsBack {c : Condition} (h : AllBare c.functions) : c.ReadsBack q lookup := by
  induction c with
  | all members ih =>
    refine .of_isGroup rfl h fun depth hdepth => ?_
    cases members with
    | nil =>
      obtain ⟨depth, rfl⟩ : ∃ n, depth = n + 1 :=
        Nat.exists_eq_succ_of_ne_zero (Nat.ne_of_gt hdepth)
      exact (ReadsAt.conjunction_one (reads_true depth) _).disjunction_one
    | cons c cs =>
      obtain ⟨hlimit, hle⟩ := length_members_le hdepth
      refine (readsAt_conjunction (List.cons_ne_nil c cs) hlimit fun d hd => ?_).disjunction_one
      exact (ih d hd fun f hf => h f (mem_functionsOfAll hd hf)).1 depth (hle d hd)
  | any members ih =>
    refine .of_isGroup rfl h fun depth hdepth => ?_
    cases members with
    | nil =>
      obtain ⟨depth, rfl⟩ : ∃ n, depth = n + 1 :=
        Nat.exists_eq_succ_of_ne_zero (Nat.ne_of_gt hdepth)
      exact (ReadsAt.conjunction_one (reads_false depth) _).disjunction_one
    | cons c cs =>
      obtain ⟨hlimit, hle⟩ := length_members_le hdepth
      refine readsAt_disjunction (List.cons_ne_nil c cs) hlimit fun d hd => ?_
      exact (ih d hd fun f hf => h f (mem_functionsOfAll hd hf)).1 depth (hle d hd)
  | not c ih =>
    refine .of_not_isGroup rfl (List.cons_ne_nil _ _) fun depth hdepth => ?_
    rw [Condition.fragment, List.length_cons, List.length_cons, length_parenthesised] at hdepth
    -- what is denied stands in parentheses, so one level of nesting is left for it
    obtain ⟨depth, rfl⟩ : ∃ n, depth = n + 1 := Nat.exists_eq_succ_of_ne_zero (by omega)
    refine ReadsAt.accept rfl (fun _ => rfl) (ReadsAt.space ?_)
    have hc : AllBare c.functions := h
    have hread := readsAt_parenthesised hc (show _ ≤ depth by omega) ((ih hc).2 depth (by omega))
    exact hread.map Formula.not
  | inList e list negated =>
    cases list with
    | nil =>
      refine .of_not_isGroup rfl (List.cons_ne_nil _ _) fun depth _ => ?_
      cases negated with
      | true => exact reads_true depth
      | false => exact reads_false depth
    | cons x xs =>
      exact .of_not_isGroup rfl (fragment_ne_nil_of_isTest rfl h) fun depth hdepth =>
        readsAt_test rfl h hdepth
  | _ =>
    exact .of_not_isGroup rfl (fragment_ne_nil_of_isTest rfl h) fun depth hdepth =>
      readsAt_test rfl h hdepth

end Condition

end

end SqlSelect
