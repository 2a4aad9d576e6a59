import SqlSelect.Proofs.Binding.Independence
import SqlSelect.Proofs.Values.Meaning
import Mathlib.Data.List.Forall2

/-!
# Equal queries are written alike

Queries are compared part by part, and nothing but the literals in them is compared otherwise than
by identity. So two queries are equal exactly when they become the same once each literal is brought
into its normal form, which is a relabeling (`Select.beq_iff_normal`). Equality is therefore an
equivalence on every kind of part. Relabeled queries have relabeled fragments, and the text does not
show literals, so equal queries are written as one text and bind equal values.
-/

namespace SqlSelect

/-- The relabeling that brings every literal into its normal form and keeps every name. -/
def Relabeling.normal : Relabeling where
  literal := Value.normal

/-! ## Lists and options -/

section Containers

variable {α β : Type} [BEq α] {normal : α → β}

/-- Where normal forms decide equality of the items, they decide equality of the lists. -/
theorem beq_list_iff_map {xs : List α}
    (h : ∀ x ∈ xs, ∀ y, (x == y) = true ↔ normal x = normal y) (ys : List α) :
    (xs == ys) = true ↔ xs.map normal = ys.map normal := by
  induction xs generalizing ys with
  | nil => cases ys <;> simp
  | cons x xs ih =>
    obtain ⟨hx, hxs⟩ := List.forall_mem_cons.mp h
    cases ys with
    | nil => simp
    | cons y ys => simp [hx y, ih hxs ys]

theorem beq_option_iff_map (h : ∀ x y, (x == y) = true ↔ normal x = normal y) (a b : Option α) :
    (a == b) = true ↔ a.map normal = b.map normal := by
  cases a <;> cases b <;> simp [h]

end Containers

/-- Values are equal one by one exactly when their normal forms are the same. -/
theorem forall₂_beq_iff (values values' : List Value) :
    List.Forall₂ (fun v w => (v == w) = true) values values' ↔
      values.map Value.normal = values'.map Value.normal := by
  simp only [Value.beq_iff_normal]
  rw [← List.forall₂_eq_eq_eq, List.forall₂_map_left_iff, List.forall₂_map_right_iff]

/-! ## Expressions and conditions -/

theorem Column.relabel_normal (c : Column) : c.relabel .normal = c := by
  show (⟨c.table.map id, c.name⟩ : Column) = c
  rw [Option.map_id]
  rfl

theorem TableRef.relabel_normal (t : TableRef) : t.relabel .normal = t := by
  show (⟨t.schema.map id, t.name, t.label.map id⟩ : TableRef) = t
  rw [Option.map_id]
  rfl

namespace Expr

theorem beqAll_eq (xs ys : List Expr) : Expr.beqAll xs ys = (xs == ys) := by
  induction xs generalizing ys with
  | nil => cases ys <;> rfl
  | cons x xs ih =>
    cases ys with
    | nil => rfl
    | cons y ys =>
      rw [Expr.beqAll, ih, List.cons_beq_cons]
      rfl

theorem beq_iff_normal (e f : Expr) :
    (e == f) = true ↔ e.relabel .normal = f.relabel .normal := by
  show Expr.beq e f = true ↔ _
  induction e generalizing f with
  | column c => cases f <;> simp [Expr.beq, relabel, Column.relabel_normal]
  | literal v =>
    cases f <;> simp [Expr.beq, relabel, Relabeling.normal, Value.beq_iff_normal]
  | call function args ih =>
    cases f with
    | call function' args' =>
      rw [Expr.beq, beqAll_eq, Bool.and_eq_true, beq_iff_eq, beq_list_iff_map ih, relabel, relabel,
        relabelAll_eq_map, relabelAll_eq_map, call.injEq]
    | _ => simp [Expr.beq, relabel]
  | binary left op right ihl ihr =>
    cases f with
    | binary left' op' right' => simp [Expr.beq, relabel, ihl, ihr, and_assoc]
    | _ => simp [Expr.beq, relabel]
  | null => cases f <;> simp [Expr.beq, relabel]
  | star => cases f <;> simp [Expr.beq, relabel]

instance : EquivBEq Expr := equivBEq_of_normal beq_iff_normal

end Expr

namespace Condition

theorem beqAll_eq (cs ds : List Condition) : Condition.beqAll cs ds = (cs == ds) := by
  induction cs generalizing ds with
  | nil => cases ds <;> rfl
  | cons c cs ih =>
    cases ds with
    | nil => rfl
    | cons d ds =>
      rw [Condition.beqAll, ih, List.cons_beq_cons]
      rfl

theorem beq_iff_normal (c d : Condition) :
    (c == d) = true ↔ c.relabel .normal = d.relabel .normal := by
  show Condition.beq c d = true ↔ _
  induction c generalizing d with
  | all members ih =>
    cases d with
    | all members' =>
      rw [Condition.beq, beqAll_eq, beq_list_iff_map ih, relabel, relabel, relabelAll_eq_map,
        relabelAll_eq_map, all.injEq]
    | _ => simp [Condition.beq, relabel]
  | any members ih =>
    cases d with
    | any members' =>
      rw [Condition.beq, beqAll_eq, beq_list_iff_map ih, relabel, relabel, relabelAll_eq_map,
        relabelAll_eq_map, any.injEq]
    | _ => simp [Condition.beq, relabel]
  | not c ih => cases d <;> simp [Condition.beq, relabel, ih]
  | compare left op right =>
    cases d <;> simp [Condition.beq, relabel, Expr.beq_iff_normal, and_assoc]
  | isNull e negated => cases d <;> simp [Condition.beq, relabel, Expr.beq_iff_normal]
  | inList e list negated =>
    have hlist : ∀ list', (list == list') = true ↔ _ :=
      beq_list_iff_map fun x _ => x.beq_iff_normal
    cases d <;> simp [Condition.beq, relabel, Expr.beq_iff_normal, hlist, and_assoc]
  | like e pattern negated ignoreCase =>
    cases d <;> simp [Condition.beq, relabel, Expr.beq_iff_normal, and_assoc]

instance : EquivBEq Condition := equivBEq_of_normal beq_iff_normal

end Condition

/-! ## Clauses and statements -/

theorem Projection.beq_iff_normal (p p' : Projection) :
    (p == p') = true ↔ p.relabel .normal = p'.relabel .normal := by
  cases p with
  | all =>
    cases p' with
    | all => exact iff_of_true rfl rfl
    | _ => exact iff_of_false Bool.false_ne_true Projection.noConfusion
  | allOf table =>
    cases p' with
    | allOf table' =>
      show (table == table') = true ↔ allOf table = allOf table'
      rw [beq_iff_eq, allOf.injEq]
    | _ => exact iff_of_false Bool.false_ne_true Projection.noConfusion
  | expr e label =>
    cases p' with
    | expr e' label' =>
      show (e == e' && label == label') = true ↔
        expr (e.relabel .normal) (label.map id) = expr (e'.relabel .normal) (label'.map id)
      rw [Bool.and_eq_true, e.beq_iff_normal, beq_iff_eq, Option.map_id, id, id, expr.injEq]
    | _ => exact iff_of_false Bool.false_ne_true Projection.noConfusion

instance : EquivBEq Projection := equivBEq_of_normal Projection.beq_iff_normal

theorem SortKey.beq_iff_normal (k k' : SortKey) :
    (k == k') = true ↔ k.relabel .normal = k'.relabel .normal := by
  show (k.expression == k'.expression &&
    (k.direction == k'.direction && k.nulls == k'.nulls)) = true ↔ _
  simp [relabel, Expr.beq_iff_normal]

instance : EquivBEq SortKey := equivBEq_of_normal SortKey.beq_iff_normal

theorem Join.beq_iff_normal (j j' : Join) :
    (j == j') = true ↔ j.relabel .normal = j'.relabel .normal := by
  show (j.kind == j'.kind && (j.table == j'.table && j.condition == j'.condition)) = true ↔ _
  simp [relabel, TableRef.relabel_normal, Condition.beq_iff_normal]

instance : EquivBEq Join := equivBEq_of_normal Join.beq_iff_normal

namespace Select

/-- Statements are equal exactly when they are the same once their literals are in normal form. -/
theorem beq_iff_normal (s t : Select) :
    (s == t) = true ↔ s.relabel .normal = t.relabel .normal := by
  have hcolumns : ∀ distinct : Option (List Column),
      distinct.map (List.map (Column.relabel .normal)) = distinct := by
    intro distinct
    rw [show Column.relabel .normal = id from funext Column.relabel_normal, List.map_id_fun,
      Option.map_id, id]
  have htables : ∀ tables : List TableRef, tables.map (TableRef.relabel .normal) = tables := by
    intro tables
    rw [show TableRef.relabel .normal = id from funext TableRef.relabel_normal, List.map_id]
  have hprojections : ∀ ps ps' : List Projection, (ps == ps') = true ↔ _ := fun ps =>
    beq_list_iff_map fun p _ => p.beq_iff_normal
  have hjoins : ∀ js js' : List Join, (js == js') = true ↔ _ := fun js =>
    beq_list_iff_map fun j _ => j.beq_iff_normal
  have hsorts : ∀ ks ks' : List SortKey, (ks == ks') = true ↔ _ := fun ks =>
    beq_list_iff_map fun k _ => k.beq_iff_normal
  show (s.distinct == t.distinct && (s.projections == t.projections && (s.tables == t.tables &&
    (s.joins == t.joins && (s.condition == t.condition && (s.groups == t.groups &&
    (s.sorts == t.sorts && (s.limit == t.limit && s.offset == t.offset)))))))) = true ↔ _
  simp only [Bool.and_eq_true, beq_iff_eq, hprojections, hjoins, hsorts,
    beq_option_iff_map Condition.beq_iff_normal, relabel, Select.mk.injEq, hcolumns, htables]

instance : EquivBEq Select := equivBEq_of_normal beq_iff_normal

end Select

/-! ## Writing -/

theorem Fragment.literals_relabel (r : Relabeling) (f : Fragment) :
    (f.relabel r).literals = f.literals.map r.literal := by
  rw [literals, literals, relabel, List.filterMap_map, List.map_filterMap]
  refine List.filterMap_congr fun p _ => ?_
  cases p <;> rfl

namespace Select

variable {s t : Select}

theorem fragment_relabel_of_beq (h : (s == t) = true) :
    s.fragment.relabel .normal = t.fragment.relabel .normal := by
  rw [← fragment_relabel, (beq_iff_normal s t).mp h, fragment_relabel]

theorem chars_fragment_of_beq (h : (s == t) = true) (q : Quoting) (bound : Nat) :
    s.fragment.chars q bound = t.fragment.chars q bound := by
  rw [← Fragment.chars_relabel (r := .normal) rfl, fragment_relabel_of_beq h,
    Fragment.chars_relabel rfl]

theorem literals_fragment_of_beq (h : (s == t) = true) :
    s.fragment.literals.map Value.normal = t.fragment.literals.map Value.normal := by
  have hliterals := congrArg Fragment.literals (fragment_relabel_of_beq h)
  rwa [Fragment.literals_relabel, Fragment.literals_relabel] at hliterals

/-- Equal statements, written behind equal values, have the same text and bind equal values. -/
theorem write_of_beq (h : (s == t) = true) (q : Quoting) {binds others : List Value}
    (hbinds : List.Forall₂ (fun v w => (v == w) = true) binds others) :
    (s.fragment.write q binds).text = (t.fragment.write q others).text ∧
      List.Forall₂ (fun v w => (v == w) = true) (s.fragment.write q binds).binds
        (t.fragment.write q others).binds := by
  constructor
  · rw [Fragment.write, Fragment.write, hbinds.length_eq, chars_fragment_of_beq h]
  · rw [forall₂_beq_iff] at hbinds ⊢
    rw [Fragment.write, Fragment.write, List.map_append, List.map_append, hbinds,
      literals_fragment_of_beq h]

/-- Equality is an equivalence on values and on every part of a query, and writing respects it. Of
floats every NaN is equal to every other and the zeros are equal; timestamps are equal when the
local times with their offsets name the same minute of universal time and agree on the rest; objects
are equal when they hold equal values under the same keys. Equal statements, written behind lists of
equal values, have the same text and leave lists of equal values. -/
theorem write_congr :
    (∀ x y : Binary64, (Value.float x == .float y) = true ↔
      x.isNaN = true ∧ y.isNaN = true ∨ x.isZero = true ∧ y.isZero = true ∨ x = y) ∧
    (∀ (t u t' u' : Timestamp) (offset offset' : Int),
      (-1440 < offset ∧ offset < 1440) → (-1440 < offset' ∧ offset' < 1440) →
      t.minusMinutes? offset = some t' → u.minusMinutes? offset' = some u' →
      ((Value.timestamp t' == .timestamp u') = true ↔
        t.minutes - offset = u.minutes - offset' ∧ t.second = u.second ∧ t.nano = u.nano)) ∧
    (∀ (d e : Json.Document) (ms ns : List (String × Json)),
      d.root = .object ms → e.root = .object ns →
      ((Value.json d == .json e) = true ↔
        ∀ key, (ms.lookup key == ns.lookup key) = true)) ∧
    (EquivBEq Value ∧ EquivBEq Expr ∧ EquivBEq Condition ∧ EquivBEq Projection ∧
      EquivBEq SortKey ∧ EquivBEq Join ∧ EquivBEq Select) ∧
    ∀ (s t : Select) (q : Quoting) (binds others : List Value), (s == t) = true →
      List.Forall₂ (fun v w => (v == w) = true) binds others →
      (s.fragment.write q binds).text = (t.fragment.write q others).text ∧
        List.Forall₂ (fun v w => (v == w) = true) (s.fragment.write q binds).binds
          (t.fragment.write q others).binds := by
  refine ⟨Binary64.beq_iff, ?_, ?_,
    ⟨inferInstance, inferInstance, inferInstance, inferInstance, inferInstance, inferInstance,
      inferInstance⟩,
    fun s t q binds others h => write_of_beq h q⟩
  · intro t u t' u' offset offset' hoffset hoffset' ht hu
    show (t' == u') = true ↔ _
    rw [beq_iff_eq, Timestamp.minusMinutes?_eq_iff hoffset hoffset' ht hu]
  · intro d e ms ns hd he
    have hms := d.canonical
    have hns := e.canonical
    rw [hd] at hms
    rw [he] at hns
    show (d.root == e.root) = true ↔ _
    rw [hd, he, Json.beq_object_iff hms.1 hns.1]

/-- One member that is a number. -/
def numberMembers (x : Binary64) (h : x.isFinite = true) : List (String × Json) :=
  [("x", .number (.float x h))]

/-- A document of one number. -/
def numberDocument (x : Binary64) (h : x.isFinite = true) : Json.Document where
  root := .object (numberMembers x h)
  canonical := ⟨List.pairwise_singleton _ _, trivial, trivial⟩

/-- A statement on two floats and a document. -/
def sampleOfFloats (x y : Binary64) (document : Json.Document) : Select where
  projections := [.expr (.call "greatest" [.literal (.float x), .literal (.float y)]) (some "m")]
  condition :=
    some (.any [.not (.compare (.column ⟨none, "j"⟩) .equal (.literal (.json document)))])

/-- A night in leap February in two zones, zeros of either sign, and two different NaNs. -/
theorem write_congr_zeros :
    let midnight : Timestamp := ⟨⟨2020, 2, 29, by decide⟩, 0, 30, 59, 0, by decide⟩
    let evening : Timestamp := ⟨⟨2020, 2, 28, by decide⟩, 18, 0, 59, 0, by decide⟩
    let moment : Timestamp := ⟨⟨2020, 2, 28, by decide⟩, 23, 30, 59, 0, by decide⟩
    let d := numberDocument (.zero false) (by decide)
    let e := numberDocument (.zero true) (by decide)
    let s := sampleOfFloats (.zero true) .quietNaN d
    let t := sampleOfFloats (.zero false) ⟨0xFFF0000000000001⟩ e
    (midnight.minusMinutes? 60 = some moment ∧ evening.minusMinutes? (-330) = some moment ∧
      midnight.minutes - 60 = evening.minutes - -330) ∧
    (∀ key, ((numberMembers (.zero false) (by decide)).lookup key ==
      (numberMembers (.zero true) (by decide)).lookup key) = true) ∧
    (s == t) = true ∧
    (s.fragment.write .always [.float (.zero true)]).text =
      (t.fragment.write .always [.float (.zero false)]).text := by
  intro midnight evening moment d e s t
  obtain ⟨-, htimestamp, hobject, -, hwrite⟩ := write_congr
  have hmidnight : midnight.minusMinutes? 60 = some moment := by decide +kernel
  have hevening : evening.minusMinutes? (-330) = some moment := by decide +kernel
  have hsame := htimestamp midnight evening moment moment 60 (-330) (by decide) (by decide)
    hmidnight hevening
  have hdocument : (Value.json d == .json e) = true := by decide +kernel
  have hselect : (s == t) = true := by decide +kernel
  exact ⟨⟨hmidnight, hevening, (hsame.mp BEq.rfl).1⟩,
    (hobject d e _ _ rfl rfl).mp hdocument, hselect,
    (hwrite s t .always _ _ hselect (.cons (by decide +kernel) .nil)).1⟩

end Select

end SqlSelect
