import SqlSelect.Proofs.Reading.NormalForm
import SqlSelect.Proofs.Reading.Trail

/-!
# Reading tables and projections

Two places need a second look. A star behind a name and a dot makes a wildcard and no column. Behind
`DISTINCT` a parenthesis opens a list of columns, or else the first projection: a column list is
tried first, and no expression can be read as one.
-/

namespace SqlSelect

open Reader Fragment

/-! ## Readers -/

namespace Reader

variable {α : Type}

/-- Read something that may stand under another name. -/
def labelled (r : Reader α) : Reader (α × Option String) := do
  let a ← r
  let label ← optional .as name
  return (a, label)

/-- Read a table with its schema and alias. -/
def table : Reader TableRef := do
  let t ← labelled column
  return ⟨t.1.table, t.1.name, t.2⟩

/-- Read a name with a star behind its dot. -/
def wildcard : Reader Projection := do
  let table ← name
  expect (.symbol .dot)
  expect (.symbol .star)
  return .allOf table

/-- Read a projection. -/
def projection (operand : Reader Expr) : Reader Projection :=
  wildcard <|> do
    let p ← labelled operand
    return (Projection.expr p.1 p.2).normalize

/-- Read a projection list. -/
def projections (operand : Reader Expr) (limit : Nat) : Reader (List Projection) :=
  separated (.symbol .comma) (projection operand) limit

/-- Read columns in parentheses. -/
def columns (limit : Nat) : Reader (List Column) :=
  parenthesised (separated (.symbol .comma) column limit)

/-- Read the projections with the word `DISTINCT` and its columns in front. -/
def head (operand : Reader Expr) (limit : Nat) :
    Reader (Option (List Column) × List Projection) := do
  match ← accept (.keyword .distinct) with
  | true =>
    (do
      let cs ← columns limit
      let ps ← projections operand limit
      return (some cs, ps)) <|>
    (do
      let ps ← projections operand limit
      return (some [], ps))
  | false =>
    let ps ← projections operand limit
    return (none, ps)

end Reader

/-! ## Tables and projections are read back -/

variable {α : Type} {q : Quoting} {lookup : Nat → Option Value}

/-- An alias is read behind what it stands for. -/
theorem Reads.labelled {r : Reader α} {f : Fragment} {a : α} {stops : List Token}
    (h : Reads q lookup r f a stops) (hstop : .keyword .as ∉ stops) (label : Option String) :
    Reads q lookup (Reader.labelled r) (aliased f label) (a, label) (.keyword .as :: stops) := by
  cases label with
  | none =>
    have hlabel : Reads q lookup
        (Reader.optional .as Reader.name >>= fun label => pure (a, label)) [] (a, none)
        (.keyword .as :: stops) :=
      (reads_optional_none Reader.name List.mem_cons_self).map _
    have hall := Reads.bind (k := fun a => Reader.optional .as Reader.name >>= fun label =>
      pure (a, label)) h hlabel (leads_nil (List.subset_cons_self _ _))
    rw [List.append_nil] at hall
    exact hall
  | some label =>
    have hname : Reads q lookup Reader.name [.space, .name label] label (.keyword .as :: stops) :=
      ((reads_name label).mono (List.nil_subset _)).space
    have hlabel : Reads q lookup
        (Reader.optional .as Reader.name >>= fun label => pure (a, label))
        [.space, .keyword .as, .space, .name label] (a, some label) (.keyword .as :: stops) :=
      ((hname.optional .as).map _).space
    exact Reads.bind h hlabel (leads_space (leads_keyword hstop))

theorem TableRef.reads_fragment (t : TableRef) :
    Reads q lookup Reader.table t.fragment t [.keyword .as, .symbol .dot] := by
  have hcolumn : Reads q lookup Reader.column (qualifiedName t.schema t.name) ⟨t.schema, t.name⟩
      [.symbol .dot] := reads_column ⟨t.schema, t.name⟩
  exact (hcolumn.labelled (by decide) t.label).map _

/-- An expression is no wildcard: behind its first name comes no dot with a star. -/
theorem fails_wildcard {e : Expr} (h : AllBare e.functions) {g : Fragment} {stops : List Token}
    (hg : Leads q [.symbol .dot] g stops) :
    Fails q lookup Reader.wildcard (e.fragment ++ g) stops := by
  cases e with
  | column c =>
    obtain ⟨_ | table, name⟩ := c
    · exact Reads.bind_fails (reads_name name) (Fails.bind (fails_expect hg) _) (leads_any g)
    · have hname : Leads q [.symbol .star] (.name name :: g) stops :=
        leads_token fun _ => ⟨_, rfl, by simp⟩
      have hdot : Fails q lookup
          (Reader.expect (.symbol .dot) >>= fun _ => Reader.expect (.symbol .star) >>= fun _ =>
            pure (Projection.allOf table)) (.symbol .dot :: .name name :: g) stops :=
        Fails.expect rfl (fun _ => rfl) (Fails.bind (fails_expect hname) _)
      exact Reads.bind_fails (f := [.name table]) (reads_name table) hdot (leads_any _)
  | call function args =>
    have hname : Reads q lookup Reader.name [.verbatim function] function [] :=
      reads_bareName (h function List.mem_cons_self)
    refine Reads.bind_fails (f := [.verbatim function]) hname (Fails.bind (fails_expect ?_) _)
      (leads_any _)
    exact leads_symbol (by decide)
  | _ => exact Fails.bind (fails_name (fun _ => ⟨_, rfl, rfl⟩) _ stops) _

theorem Projection.reads_fragment {p : Projection} (h : AllBare p.functions) {depth : Nat}
    (hdepth : p.fragment.length ≤ depth) :
    Reads q lookup (Reader.projection (Reader.expr lookup depth)) p.fragment p.normalize
      (.keyword .as :: exprStops) := by
  cases p with
  | all =>
    have hstar : Reads q lookup (Reader.expr lookup depth) Expr.star.fragment .star exprStops :=
      Expr.star.reads_fragment (fun _ hf => absurd hf List.not_mem_nil) hdepth
    refine ReadsAt.orElse ?_ ((hstar.labelled (by decide) none).map _)
    exact Fails.bind (fails_name (fun _ => ⟨_, rfl, rfl⟩) _ _) _
  | allOf table =>
    have hwildcard : Reads q lookup Reader.wildcard [.name table, .symbol .dot, .symbol .star]
        (.allOf table) [] :=
      Reads.bind (f := [.name table]) (reads_name table)
        (ReadsAt.expect rfl (fun _ => rfl) (ReadsAt.expect rfl (fun _ => rfl) ReadsAt.pure))
        (leads_any _)
    exact ReadsAt.orElse_left (hwildcard.mono (List.nil_subset _)) _
  | expr e label =>
    have hle : e.fragment.length ≤ depth := by
      refine Nat.le_trans ?_ hdepth
      cases label with
      | none => exact Nat.le_refl _
      | some label =>
        rw [Projection.fragment, aliased, List.length_append]
        exact Nat.le_add_right _ _
    have he : Reads q lookup (Reader.expr lookup depth) e.fragment e exprStops :=
      e.reads_fragment h hle
    refine ReadsAt.orElse ?_ ((he.labelled (by decide) label).map _)
    cases label with
    | none =>
      have hend : Leads q [.symbol .dot] [] (.keyword .as :: exprStops) := leads_nil (by decide)
      have hfails : Fails q lookup Reader.wildcard (e.fragment ++ []) (.keyword .as :: exprStops) :=
        fails_wildcard h hend
      rw [List.append_nil] at hfails
      exact hfails
    | some label =>
      exact fails_wildcard h (leads_space (leads_keyword (by decide)))

/-- A projection starts like an expression. -/
theorem Projection.leads_fragment {p : Projection} (h : AllBare p.functions)
    {stops stops' : List Token} (hstops : ∀ t ∈ stops, t.startsExpr = false) (g : Fragment) :
    Leads q stops (p.fragment ++ g) stops' := by
  have htoken : ∀ t : Token, t.startsExpr = true → t ∉ stops := by
    intro t ht hmem
    rw [hstops t hmem] at ht
    cases ht
  cases p with
  | all => exact leads_symbol (htoken _ rfl)
  | allOf table => exact leads_token fun _ => ⟨_, rfl, htoken _ rfl⟩
  | expr e label =>
    cases label with
    | none => exact e.leads_fragment h hstops g
    | some label =>
      rw [Projection.fragment, aliased, List.append_assoc]
      exact e.leads_fragment h hstops _

/-- A list of projections is read up to what no projection goes on with. -/
theorem reads_projections {ps : List Projection} (hnil : ps ≠ [])
    (h : ∀ p ∈ ps, AllBare p.functions) {depth : Nat}
    (hdepth : (commaSeparated (ps.map Projection.fragment)).length < depth) :
    Reads q lookup (Reader.projections (Reader.expr lookup depth) depth)
      (commaSeparated (ps.map Projection.fragment)) (ps.map Projection.normalize)
      (.symbol .comma :: .keyword .as :: exprStops) := by
  obtain ⟨hlimit, hle⟩ := length_items_le isSeparator_comma
    (show (commaSeparated (ps.map Projection.fragment)).length ≤ depth - 1 by omega)
  refine reads_separated isSeparator_comma (by decide) hnil (by omega) fun p hp => ?_
  have hp' := hle p hp
  exact p.reads_fragment (h p hp) (by omega)

/-! ## Distinct rows -/

theorem reads_columns {cs : List Column} (hnil : cs ≠ []) {limit : Nat}
    (hlimit : cs.length ≤ limit) :
    Reads q lookup (Reader.columns limit)
      (Fragment.parenthesised (commaSeparated (cs.map Column.fragment))) cs [] := by
  have hlist : Reads q lookup (Reader.separated (.symbol .comma) Reader.column limit)
      (commaSeparated (cs.map Column.fragment)) (cs.map id) [.symbol .comma, .symbol .dot] :=
    reads_separated isSeparator_comma (by decide) hnil hlimit fun c _ => reads_column c
  rw [List.map_id] at hlist
  exact hlist.parenthesised (by decide)

/-- No list of columns ends in front of an operation. -/
theorem fails_columns_operand {e : Expr} (h : AllBare e.functions) (op : Arithmetic)
    (limit : Nat) (k : List Column → Unit → Reader α) (g : Fragment) (stops : List Token) :
    Fails q lookup
      (Reader.separated (.symbol .comma) Reader.column limit >>= fun cs =>
        Reader.expect (.symbol .closeParen) >>= k cs)
      (e.fragment ++ .space :: .symbol op.symbol :: g) stops := by
  have hone : ∀ {f : Fragment} {c : Column}, Reads q lookup Reader.column f c [.symbol .dot] →
      ∀ limit, Reads q lookup (Reader.separated (.symbol .comma) Reader.column (limit + 1)) f [c]
        [.symbol .comma, .symbol .dot] :=
    fun hc limit => ReadsAt.separated_one hc (.symbol .comma) limit
  cases limit with
  | zero => exact Fails.bind (fails_failure _ _) _
  | succ limit =>
    cases e with
    | column c =>
      have hop : Token.symbol op.symbol ∉ [.symbol .comma, .symbol .dot] := by
        cases op <;> decide
      have hclose : Token.symbol op.symbol ∉ [.symbol .closeParen] := by
        cases op <;> decide
      exact Reads.bind_fails (hone (reads_column c) limit)
        (Fails.bind (fails_expect (leads_space (leads_symbol hclose))) _)
        (leads_space (leads_symbol hop))
    | call function args =>
      have hname : Reads q lookup Reader.name [.verbatim function] function [] :=
        reads_bareName (h function List.mem_cons_self)
      refine Reads.bind_fails (f := [.verbatim function]) (hone (reads_column_bare hname) limit)
        (Fails.bind (fails_expect ?_) _) ?_
      · exact leads_symbol (by decide)
      · exact leads_symbol (by decide)
    | _ =>
      exact Fails.bind (Fails.bind (Fails.bind (fails_name (fun _ => ⟨_, rfl, rfl⟩) _ _) _) _) _

/-- No list of columns in parentheses can be read from an expression. -/
theorem fails_columns {e : Expr} (h : AllBare e.functions) (limit : Nat) :
    Fails q lookup (Reader.columns limit) e.fragment [] := by
  have hfirst : ∀ {p : Piece} {g : Fragment},
      (∀ bound, ∃ t, p.token? bound = some t ∧ t ∉ [.symbol .openParen]) →
      Fails q lookup (Reader.columns limit) (p :: g) [] :=
    fun hp => Fails.bind (fails_expect (leads_token hp)) _
  cases e with
  | column c =>
    obtain ⟨_ | table, name⟩ := c
    · exact hfirst fun _ => ⟨_, rfl, by simp⟩
    · exact hfirst fun _ => ⟨_, rfl, by simp⟩
  | literal v => exact hfirst fun _ => ⟨_, rfl, by simp⟩
  | call function args =>
    refine hfirst fun _ => ⟨.name function, ?_, by simp⟩
    exact congrArg some (Token.ofBareWord_of_isBareName (h function List.mem_cons_self))
  | binary left op right =>
    rw [Expr.fragment, spaced_triple, Fragment.parenthesised, List.append_assoc]
    exact Fails.expect rfl (fun _ => rfl)
      (fails_columns_operand h.append_left op limit (fun cs _ => pure cs) _ _)
  | null => exact hfirst fun _ => ⟨_, rfl, by decide⟩
  | star => exact hfirst fun _ => ⟨_, rfl, by decide⟩

/-- No list of columns in parentheses can be read from a list of projections. -/
theorem fails_columns_projections {ps : List Projection} (hnil : ps ≠ [])
    (h : ∀ p ∈ ps, AllBare p.functions) (limit : Nat) (stops : List Token) :
    Fails q lookup (Reader.columns limit) (commaSeparated (ps.map Projection.fragment)) stops := by
  obtain ⟨p, ps, rfl⟩ := List.exists_cons_of_ne_nil hnil
  have hp : Fails q lookup (Reader.columns limit) p.fragment [] := by
    cases p with
    | all => exact Fails.bind (fails_expect (leads_symbol (by decide))) _
    | allOf table => exact Fails.bind (fails_expect (leads_token fun _ => ⟨_, rfl, by simp⟩)) _
    | expr e label =>
      have he : Fails q lookup (Reader.columns limit) e.fragment [] :=
        fails_columns (h _ List.mem_cons_self) limit
      cases label with
      | none => exact he
      | some label => exact he.append _ _
  obtain ⟨g, hg⟩ := exists_joined_cons_eq_append [.symbol .comma, .space] p.fragment
    (ps.map Projection.fragment)
  rw [List.map_cons, commaSeparated, hg]
  exact hp.append g stops

theorem projectionClause_eq (ps : List Projection) : Select.projectionClause ps =
    [commaSeparated ((Projection.orAll ps).map Projection.fragment)] := by
  cases ps <;> rfl

theorem forall_mem_orAll {ps : List Projection}
    (h : AllBare (ps.flatMap Projection.functions)) :
    ∀ p ∈ Projection.orAll ps, AllBare p.functions := by
  cases ps with
  | nil =>
    intro p hp
    cases List.mem_singleton.mp hp
    exact fun _ hf => absurd hf List.not_mem_nil
  | cons p ps => exact h.of_flatMap

theorem orAll_ne_nil (ps : List Projection) : Projection.orAll ps ≠ [] := by
  cases ps <;> exact List.cons_ne_nil _ _

/-- The projections are read with the word `DISTINCT` and its columns in front. -/
theorem reads_head (distinct : Option (List Column)) {ps : List Projection}
    (h : ∀ p ∈ Projection.orAll ps, AllBare p.functions) {depth : Nat}
    (hdepth : (trail (Select.distinctClause distinct ++ Select.projectionClause ps)).length ≤
      depth) :
    Reads q lookup (Reader.head (Reader.expr lookup depth) depth)
      (trail (Select.distinctClause distinct ++ Select.projectionClause ps))
      (distinct, (Projection.orAll ps).map Projection.normalize)
      (.symbol .comma :: .keyword .as :: exprStops) := by
  rw [trail_append, projectionClause_eq, trail_singleton] at hdepth ⊢
  rw [List.length_append, List.length_cons] at hdepth
  have hps : Reads q lookup (Reader.projections (Reader.expr lookup depth) depth)
      (commaSeparated ((Projection.orAll ps).map Projection.fragment))
      ((Projection.orAll ps).map Projection.normalize)
      (.symbol .comma :: .keyword .as :: exprStops) :=
    reads_projections (orAll_ne_nil ps) h (by omega)
  rcases distinct with _ | _ | ⟨c, cs⟩
  · refine Reads.space (ReadsAt.not_accept (hps.map _) ?_)
    -- the first projection does not start with the word
    obtain ⟨p, ps', hps'⟩ := List.exists_cons_of_ne_nil (orAll_ne_nil ps)
    obtain ⟨g, hg⟩ := exists_joined_cons_eq_append [.symbol .comma, .space] p.fragment
      (ps'.map Projection.fragment)
    rw [hps', List.map_cons, commaSeparated, hg]
    exact p.leads_fragment (h p (by rw [hps']; exact List.mem_cons_self)) (by decide) g
  · refine Reads.space (ReadsAt.accept rfl (fun _ => rfl) (ReadsAt.space ?_))
    -- a parenthesis that comes now opens the first projection, and no list of columns
    refine ReadsAt.orElse (Fails.bind ?_ _) (hps.map _)
    exact fails_columns_projections (orAll_ne_nil ps) h depth _
  · have hlimit : (c :: cs).length ≤ depth := by
      have htrail : (trail (Select.distinctClause (some (c :: cs)))).length =
          (commaSeparated ((c :: cs).map Column.fragment)).length + 4 := by
        simp only [Select.distinctClause, trail_singleton, List.length_cons, length_parenthesised]
      have hitems := (length_items_le isSeparator_comma
        (show (commaSeparated ((c :: cs).map Column.fragment)).length ≤ depth - 1 by omega)).1
      omega
    have hcs : Reads q lookup (Reader.columns depth)
        (Fragment.parenthesised (commaSeparated ((c :: cs).map Column.fragment))) (c :: cs) [] :=
      reads_columns (List.cons_ne_nil c cs) hlimit
    rw [Select.distinctClause, trail_singleton]
    · refine Reads.space (ReadsAt.accept rfl (fun _ => rfl) (ReadsAt.orElse_left ?_ _))
      exact Reads.bind hcs (ReadsAt.space (hps.map _)) (leads_any _)
    · exact List.cons_ne_nil c cs

end SqlSelect
