import SqlSelect.Proofs.Reading.Projection

/-!
# Reading clauses

Each clause behind the projections is known by its first word and is left out when it has no
entries.
-/

namespace SqlSelect

open Reader Fragment

/-! ## Readers -/

namespace Reader

variable {α : Type}

/-- Read a list behind its words, or no list. -/
def clause (word : Keyword) (r : Reader (List α)) : Reader (List α) := do
  let xs ← optional word r
  return xs.getD []

/-- The kind of join that starts with a token. -/
def joinKind? : Token → Option JoinKind
  | .keyword .inner => some .inner
  | .keyword .left => some .left
  | .keyword .right => some .right
  | .keyword .full => some .full
  | _ => none

/-- Read a join behind its first word. -/
def join (condition : Reader Condition) (kind : JoinKind) : Reader Join := do
  expect (.keyword .join)
  let t ← table
  expect (.keyword .on)
  let c ← condition
  return ⟨kind, t, c⟩

/-- Read at most `limit` joins. -/
def joins (condition : Reader Condition) : Nat → Reader (List Join)
  | 0 => return []
  | limit + 1 => do
    match ← attempt joinKind? with
    | some kind =>
      let j ← join condition kind
      let js ← joins condition limit
      return j :: js
    | none => return []

/-- Read expressions behind the word `BY`. -/
def groups (operand : Reader Expr) (limit : Nat) : Reader (List Projection) := do
  expect (.keyword .by)
  let es ← separated (.symbol .comma) operand limit
  return es.map .ofExpr

/-- The direction that a token stands for. -/
def direction? : Token → Option Direction
  | .keyword .asc => some .ascending
  | .keyword .desc => some .descending
  | _ => none

/-- Read where nulls are sorted. -/
def nullsPlace : Reader NullsPlace := do
  match ← token with
  | .keyword .first => return .first
  | .keyword .last => return .last
  | _ => failure

/-- Read a sort key. -/
def sortKey (operand : Reader Expr) : Reader SortKey := do
  let e ← operand
  let direction ← attempt direction?
  let nulls ← optional .nulls nullsPlace
  return ⟨e, direction, nulls⟩

/-- Read sort keys behind the word `BY`. -/
def sorts (operand : Reader Expr) (limit : Nat) : Reader (List SortKey) := do
  expect (.keyword .by)
  separated (.symbol .comma) (sortKey operand) limit

/-- Read a number of rows. -/
def count : Reader UInt64 := do
  match ← token with
  | .number n => return UInt64.ofNat n
  | _ => failure

/-- Read a condition. -/
def condition (lookup : Nat → Option Value) (depth : Nat) : Reader Condition := do
  let f ← formula lookup depth
  return f.toCondition

end Reader

/-! ## The first words of clauses -/

variable {α : Type} {q : Quoting} {lookup : Nat → Option Value}

theorem opens_listClause (k : Keyword) (ks : List Keyword) (entries : List Fragment) :
    Opens [k] (Select.listClause (k :: ks) entries) := by
  cases entries with
  | nil => exact .nil _
  | cons e es =>
    obtain ⟨g, hg⟩ := exists_keywords_eq_cons k ks
    rw [Select.listClause, hg]
    · exact .cons List.mem_cons_self g _
    · exact List.cons_ne_nil e es

theorem opens_conditionClause (c : Option Condition) :
    Opens [.where] (Select.conditionClause c) := by
  cases c with
  | none => exact .nil _
  | some c => exact .cons List.mem_cons_self _ _

theorem opens_countClause (k : Keyword) (n : Option UInt64) :
    Opens [k] (Select.countClause k n) := by
  cases n with
  | none => exact .nil _
  | some n => exact .cons List.mem_cons_self _ _

/-- The first words of joins. -/
def joinWords : List Keyword := [.inner, .left, .right, .full]

theorem exists_keywords_joinKind (kind : JoinKind) :
    ∃ k ∈ joinWords, kind.keywords = [k, .join] ∧ joinKind? (.keyword k) = some kind := by
  cases kind with
  | inner => exact ⟨.inner, by decide, rfl, rfl⟩
  | left => exact ⟨.left, by decide, rfl, rfl⟩
  | right => exact ⟨.right, by decide, rfl, rfl⟩
  | full => exact ⟨.full, by decide, rfl, rfl⟩

/-- A join is its first word with the rest behind. -/
theorem Join.exists_fragment_eq_cons (j : Join) :
    ∃ k ∈ joinWords, joinKind? (.keyword k) = some j.kind ∧
      j.fragment = .keyword k :: .space :: .keyword .join :: .space ::
        (j.table.fragment ++ .space :: .keyword .on :: .space :: j.condition.fragment) := by
  obtain ⟨k, hk, hwords, hkind⟩ := exists_keywords_joinKind j.kind
  refine ⟨k, hk, hkind, ?_⟩
  rw [Join.fragment, hwords, spaced_cons]
  simp only [trail, List.flatMap_cons, List.flatMap_nil, List.append_nil, List.cons_append,
    List.nil_append]
  rfl

theorem Join.length_condition_le (j : Join) : j.condition.fragment.length ≤ j.fragment.length := by
  obtain ⟨k, -, -, hj⟩ := j.exists_fragment_eq_cons
  rw [hj]
  simp only [List.length_cons, List.length_append]
  omega

theorem opens_joins (js : List Join) : Opens joinWords (js.map Join.fragment) := by
  cases js with
  | nil => exact .nil _
  | cons j js =>
    obtain ⟨k, hk, -, hj⟩ := j.exists_fragment_eq_cons
    rw [List.map_cons, hj]
    exact .cons hk _ _

/-! ## Joins -/

/-- A condition is read as its normal form. -/
theorem Condition.reads_normalize {c : Condition} (h : AllBare c.functions) {depth : Nat}
    (hdepth : c.fragment.length ≤ depth) :
    Reads q lookup (Reader.condition lookup depth) c.fragment c.normalize formulaStops := by
  have hback : c.ReadsBack q lookup := readsBack h
  have hread := (hback.2 depth hdepth).map Formula.toCondition
  simp only [toCondition_formula] at hread
  exact hread

theorem Join.reads_join {j : Join} (h : AllBare j.condition.functions) {depth : Nat}
    (hdepth : j.condition.fragment.length ≤ depth) :
    Reads q lookup (Reader.join (Reader.condition lookup depth) j.kind)
      (.space :: .keyword .join :: .space ::
        (j.table.fragment ++ .space :: .keyword .on :: .space :: j.condition.fragment))
      j.normalize formulaStops := by
  have hcondition : Reads q lookup (Reader.condition lookup depth)
      (.space :: j.condition.fragment) j.condition.normalize formulaStops :=
    (j.condition.reads_normalize h hdepth).space
  refine ReadsAt.space (ReadsAt.expect rfl (fun _ => rfl) (ReadsAt.space ?_))
  refine Reads.bind j.table.reads_fragment ?_ (leads_space (leads_keyword (by decide)))
  exact ReadsAt.space (ReadsAt.expect rfl (fun _ => rfl) (hcondition.map _))

/-- Only the first words of joins mean a kind of join. -/
theorem mem_of_joinKind?_ne_none (t : Token) (ht : joinKind? t ≠ none) :
    t ∈ joinWords.map .keyword := by
  cases t with
  | keyword k =>
    revert ht
    cases k <;> decide
  | _ => exact absurd rfl ht

/-- Joins are read one after another. -/
theorem reads_joins {js : List Join} (h : ∀ j ∈ js, AllBare j.condition.functions)
    {depth limit : Nat} (hdepth : ∀ j ∈ js, j.condition.fragment.length ≤ depth)
    (hlimit : js.length ≤ limit) :
    Reads q lookup (Reader.joins (Reader.condition lookup depth) limit)
      (trail (js.map Join.fragment)) (js.map Join.normalize)
      (joinWords.map .keyword ++ formulaStops) := by
  induction js generalizing limit with
  | nil =>
    cases limit with
    | zero => exact ReadsAt.pure
    | succ limit =>
      exact ReadsAt.not_attempt _ mem_of_joinKind?_ne_none ReadsAt.pure
        (leads_nil (List.subset_append_left _ _))
  | cons j js ih =>
    obtain ⟨limit, rfl⟩ : ∃ n, limit = n + 1 :=
      Nat.exists_eq_succ_of_ne_zero (Nat.ne_of_gt (Nat.lt_of_lt_of_le (Nat.succ_pos _) hlimit))
    obtain ⟨k, hk, hkind, hj⟩ := j.exists_fragment_eq_cons
    have hjoin : Reads q lookup (Reader.join (Reader.condition lookup depth) j.kind) _
        j.normalize formulaStops :=
      j.reads_join (h j List.mem_cons_self) (hdepth j List.mem_cons_self)
    have hrest := ih (fun i hi => h i (List.mem_cons_of_mem j hi))
      (fun i hi => hdepth i (List.mem_cons_of_mem j hi)) (Nat.le_of_succ_le_succ hlimit)
    rw [List.map_cons, hj, trail, List.flatMap_cons, ← trail]
    refine ReadsAt.space (ReadsAt.attempt rfl (fun _ => rfl) hkind ?_)
    -- the condition of this join ends where the first word of the next one stands
    refine Reads.bind hjoin (hrest.map _) (leads_trail (opens_joins js) ?_ ?_)
    · decide
    · exact List.subset_append_right _ _

/-! ## Sort keys -/

theorem reads_nullsPlace (place : NullsPlace) :
    Reads q lookup Reader.nullsPlace [.keyword place.keyword] place [] := by
  cases place with
  | first => exact ReadsAt.token rfl (fun _ => rfl) ReadsAt.pure
  | last => exact ReadsAt.token rfl (fun _ => rfl) ReadsAt.pure

/-- What a sort key would go on with. -/
def sortStops : List Token := .keyword .nulls :: .keyword .asc :: .keyword .desc :: exprStops

theorem reads_nulls (e : Expr) (direction : Option Direction) (nulls : Option NullsPlace) :
    Reads q lookup
      (Reader.optional .nulls Reader.nullsPlace >>= fun nulls =>
        pure (SortKey.mk e direction nulls))
      (trail (nulls.map fun place => keywords [.nulls, place.keyword]).toList)
      ⟨e, direction, nulls⟩ sortStops := by
  cases nulls with
  | none => exact (reads_optional_none _ (by decide)).map _
  | some place =>
    have hplace : Reads q lookup Reader.nullsPlace [.space, .keyword place.keyword] place
        sortStops := ((reads_nullsPlace place).mono (List.nil_subset _)).space
    exact ((hplace.optional .nulls).map _).space

theorem opens_nulls (nulls : Option NullsPlace) :
    Opens [.nulls] (nulls.map fun place => keywords [.nulls, place.keyword]).toList := by
  cases nulls with
  | none => exact .nil _
  | some place => exact .cons List.mem_cons_self _ _

theorem opens_direction (direction : Option Direction) :
    Opens [.asc, .desc] (direction.map fun d => [Piece.keyword d.keyword]).toList := by
  cases direction with
  | none => exact .nil _
  | some d => cases d <;> exact .cons (by decide) _ _

/-- Only the two words of directions mean one. -/
theorem mem_of_direction?_ne_none (t : Token) (ht : direction? t ≠ none) :
    t ∈ [.keyword .asc, .keyword .desc] := by
  cases t with
  | keyword k =>
    revert ht
    cases k <;> decide
  | _ => exact absurd rfl ht

theorem SortKey.reads_fragment {k : SortKey} (h : AllBare k.expression.functions) {depth : Nat}
    (hdepth : k.fragment.length ≤ depth) :
    Reads q lookup (Reader.sortKey (Reader.expr lookup depth)) k.fragment k sortStops := by
  obtain ⟨e, direction, nulls⟩ := k
  have hfragment : (SortKey.mk e direction nulls).fragment = e.fragment ++
      (trail (direction.map fun d => [.keyword d.keyword]).toList ++
        trail (nulls.map fun place => keywords [.nulls, place.keyword]).toList) := by
    rw [SortKey.fragment, List.append_assoc, List.singleton_append, spaced_cons, trail_append]
  have hopens := (opens_direction direction).append (opens_nulls nulls)
  rw [hfragment, List.length_append] at hdepth
  rw [hfragment]
  refine Reads.bind (e.reads_fragment h (by omega)) ?_ ?_
  · cases direction with
    | none =>
      exact ReadsAt.not_attempt _ mem_of_direction?_ne_none (reads_nulls e none nulls)
        (leads_trail (opens_nulls nulls) (by decide) (by decide))
    | some d =>
      have hd : direction? (.keyword d.keyword) = some d := by cases d <;> rfl
      exact ReadsAt.space (ReadsAt.attempt rfl (fun _ => rfl) hd (reads_nulls e (some d) nulls))
  · rw [← trail_append]
    exact leads_trail hopens (by decide) (by decide)

/-! ## Lists of entries, conditions and counts -/

theorem trail_listClause (words : List Keyword) {entries : List Fragment} (hnil : entries ≠ []) :
    trail (Select.listClause words entries) =
      .space :: (keywords words ++ .space :: commaSeparated entries) := by
  rw [Select.listClause, trail, List.flatMap_cons, List.flatMap_cons, List.flatMap_nil,
    List.append_nil, List.cons_append]
  exact hnil

/-- Entries are read with commas between them, if each is read and if they are a part of a clause
that is short enough. -/
theorem reads_entries {β : Type} {r : Reader α} {fragment : β → Fragment} {value : β → α}
    {words : List Keyword} {xs : List β} (hnil : xs ≠ []) {limit : Nat}
    (hlimit : (trail (Select.listClause words (xs.map fragment))).length ≤ limit)
    {stops : List Token} (hstop : .symbol .comma ∉ stops)
    (h : ∀ x ∈ xs, (fragment x).length ≤ limit →
      Reads q lookup r (fragment x) (value x) stops) :
    Reads q lookup (Reader.separated (.symbol .comma) r limit)
      (.space :: commaSeparated (xs.map fragment)) (xs.map value) (.symbol .comma :: stops) := by
  rw [trail_listClause words (mt List.map_eq_nil_iff.mp hnil), List.length_cons,
    List.length_append, List.length_cons] at hlimit
  obtain ⟨hcount, hle⟩ := length_items_le isSeparator_comma
    (show (commaSeparated (xs.map fragment)).length ≤ limit - 1 by omega)
  refine (reads_separated isSeparator_comma hstop hnil (by omega) fun x hx => ?_).space
  have hx' := hle x hx
  exact h x hx (by omega)

/-- A list clause is read from its first word on, and one without entries is not written. -/
theorem reads_listClause {r : Reader (List α)} {k : Keyword} {ks : List Keyword}
    {entries : List Fragment} {as : List α} {stops : List Token} (hnil : entries = [] → as = [])
    (h : entries ≠ [] →
      Reads q lookup r (trail (ks.map Keyword.fragment) ++ .space :: commaSeparated entries) as
        stops) :
    Reads q lookup (Reader.clause k r) (trail (Select.listClause (k :: ks) entries)) as
      (.keyword k :: stops) := by
  by_cases hentries : entries = []
  · rw [hentries, hnil hentries]
    exact (reads_optional_none r List.mem_cons_self).map _
  · have hwords : keywords (k :: ks) = .keyword k :: trail (ks.map Keyword.fragment) :=
      spaced_cons _ _
    rw [trail_listClause _ hentries, hwords]
    exact ((((h hentries).mono (List.subset_cons_self _ _)).optional k).map _).space

theorem reads_tables {ts : List TableRef} {limit : Nat}
    (hlimit : (trail (Select.listClause [.from] (ts.map TableRef.fragment))).length ≤ limit) :
    Reads q lookup (Reader.clause .from (Reader.separated (.symbol .comma) Reader.table limit))
      (trail (Select.listClause [.from] (ts.map TableRef.fragment))) ts
      [.keyword .from, .symbol .comma, .keyword .as, .symbol .dot] := by
  refine reads_listClause List.map_eq_nil_iff.mp fun hnil => ?_
  have hts : Reads q lookup (Reader.separated (.symbol .comma) Reader.table limit)
      (.space :: commaSeparated (ts.map TableRef.fragment)) (ts.map id)
      [.symbol .comma, .keyword .as, .symbol .dot] :=
    reads_entries (mt (congrArg _) hnil) hlimit (by decide) fun t _ _ => t.reads_fragment
  rw [List.map_id] at hts
  exact hts

theorem reads_groups {gs : List Projection} (h : ∀ p ∈ gs, AllBare p.functions) {depth : Nat}
    (hdepth : (trail (Select.listClause [.group, .by]
      (gs.filterMap Projection.groupFragment?))).length ≤ depth) :
    Reads q lookup (Reader.clause .group (Reader.groups (Reader.expr lookup depth) depth))
      (trail (Select.listClause [.group, .by] (gs.filterMap Projection.groupFragment?)))
      ((gs.filterMap Projection.grouped?).map Projection.ofExpr)
      (.keyword .group :: .symbol .comma :: exprStops) := by
  have hbare : ∀ e ∈ gs.filterMap Projection.grouped?, AllBare e.functions := by
    intro e he
    obtain ⟨p, hp, hpe⟩ := List.mem_filterMap.mp he
    rw [← Projection.functions_eq_of_grouped? hpe]
    exact h p hp
  rw [Projection.groupFragments_eq_map] at hdepth ⊢
  generalize gs.filterMap Projection.grouped? = es at hbare hdepth ⊢
  refine reads_listClause (fun hnil => ?_) fun hnil => ?_
  · rw [List.map_eq_nil_iff.mp hnil, List.map_nil]
  have hes : Reads q lookup (Reader.separated (.symbol .comma) (Reader.expr lookup depth) depth)
      (.space :: commaSeparated (es.map Expr.fragment)) (es.map id)
      (.symbol .comma :: exprStops) :=
    reads_entries (mt (congrArg _) hnil) hdepth (by decide)
      fun e he hle => e.reads_fragment (hbare e he) hle
  rw [List.map_id] at hes
  exact ReadsAt.space (ReadsAt.expect rfl (fun _ => rfl) (hes.map _))

theorem reads_sorts {ks : List SortKey} (h : ∀ k ∈ ks, AllBare k.expression.functions)
    {depth : Nat}
    (hdepth : (trail (Select.listClause [.order, .by] (ks.map SortKey.fragment))).length ≤
      depth) :
    Reads q lookup (Reader.clause .order (Reader.sorts (Reader.expr lookup depth) depth))
      (trail (Select.listClause [.order, .by] (ks.map SortKey.fragment))) ks
      (.keyword .order :: .symbol .comma :: sortStops) := by
  refine reads_listClause List.map_eq_nil_iff.mp fun hnil => ?_
  have hks : Reads q lookup
      (Reader.separated (.symbol .comma) (Reader.sortKey (Reader.expr lookup depth)) depth)
      (.space :: commaSeparated (ks.map SortKey.fragment)) (ks.map id)
      (.symbol .comma :: sortStops) :=
    reads_entries (mt (congrArg _) hnil) hdepth (by decide)
      fun k hk hle => k.reads_fragment (h k hk) hle
  rw [List.map_id] at hks
  exact ReadsAt.space (ReadsAt.expect rfl (fun _ => rfl) hks)

theorem reads_filter {c : Option Condition} (h : AllBare (c.elim [] Condition.functions))
    {depth : Nat} (hdepth : (trail (Select.conditionClause c)).length ≤ depth) :
    Reads q lookup (Reader.optional .where (Reader.condition lookup depth))
      (trail (Select.conditionClause c)) (c.map Condition.normalize)
      (.keyword .where :: formulaStops) := by
  cases c with
  | none => exact reads_optional_none _ List.mem_cons_self
  | some c =>
    have hle : c.fragment.length ≤ depth := by
      simp only [Select.conditionClause, trail, List.flatMap_cons, List.length_append,
        List.length_cons] at hdepth
      omega
    have hc : Reads q lookup (Reader.condition lookup depth) (.space :: c.fragment) c.normalize
        (.keyword .where :: formulaStops) :=
      ((c.reads_normalize h hle).mono (List.subset_cons_self _ _)).space
    have htrail : trail (Select.conditionClause (some c)) =
        .space :: .keyword .where :: .space :: c.fragment := by
      simp only [Select.conditionClause, trail, List.flatMap_cons, List.flatMap_nil,
        List.append_nil, List.cons_append, List.nil_append]
    rw [htrail]
    exact (hc.optional .where).space

theorem reads_count (word : Keyword) (n : Option UInt64) :
    Reads q lookup (Reader.optional word Reader.count) (trail (Select.countClause word n)) n
      [.keyword word] := by
  cases n with
  | none => exact reads_optional_none _ List.mem_cons_self
  | some n =>
    have hcount : Reads q lookup Reader.count [.space, .count n.toNat] (UInt64.ofNat n.toNat)
        [.keyword word] :=
      Reads.space (ReadsAt.token rfl (fun _ => rfl) ReadsAt.pure)
    rw [UInt64.ofNat_toNat] at hcount
    exact (hcount.optional word).space

end SqlSelect
