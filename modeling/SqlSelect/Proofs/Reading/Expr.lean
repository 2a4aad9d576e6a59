import SqlSelect.Proofs.Reading.Separated

/-!
# Reading expressions

An expression starts with one token that tells its kind: a name, a placeholder, a parenthesis,
`NULL` or a star. Behind a name a dot makes a qualified column and a parenthesis makes a call, so an
expression ends where neither follows.
-/

namespace SqlSelect

open Reader Fragment

/-! ## Readers -/

namespace Reader

/-- Read a column, possibly behind its table. -/
def column : Reader Column := do
  let word ← name
  match ← accept (.symbol .dot) with
  | true =>
    let column ← name
    return ⟨some word, column⟩
  | false => return ⟨none, word⟩

/-- The operation that a token stands for. -/
def arithmetic? : Token → Option Arithmetic
  | .symbol .plus => some .add
  | .symbol .minus => some .subtract
  | .symbol .star => some .multiply
  | .symbol .slash => some .divide
  | .symbol .percent => some .modulo
  | .symbol .concat => some .concat
  | _ => none

/-- Read the operation between two operands. -/
def arithmetic : Reader Arithmetic := do
  let t ← token
  match arithmetic? t with
  | some op => return op
  | none => failure

/-- Read the arguments of a call up to the closing parenthesis. -/
def arguments (r : Reader Expr) (limit : Nat) : Reader (List Expr) := do
  match ← accept (.symbol .closeParen) with
  | true => return []
  | false =>
    let args ← separated (.symbol .comma) r limit
    expect (.symbol .closeParen)
    return args

/-- Read what follows a name: the rest of a column, or the arguments of a call. -/
def afterName (word : String) (args : Reader (List Expr)) : Reader Expr := do
  match ← accept (.symbol .dot) with
  | true =>
    let column ← name
    return .column ⟨some word, column⟩
  | false =>
    match ← accept (.symbol .openParen) with
    | true =>
      let args ← args
      return .call word args
    | false => return .column ⟨none, word⟩

/-- Read a binary expression behind its opening parenthesis. -/
def operation (operand : Reader Expr) : Reader Expr := do
  let left ← operand
  let op ← arithmetic
  let right ← operand
  expect (.symbol .closeParen)
  return .binary left op right

/-- Read an expression that is nested at most `depth` deep. -/
def expr (lookup : Nat → Option Value) : Nat → Reader Expr
  | 0 => failure
  | depth + 1 => do
    match ← token with
    | .name word => afterName word (arguments (expr lookup depth) depth)
    | .parameter n =>
      match lookup n with
      | some v => return .literal v
      | none => failure
    | .symbol .openParen => operation (expr lookup depth)
    | .keyword .null => return .null
    | .symbol .star => return .star
    | _ => failure

end Reader

/-! ## Names of functions -/

/-- Whether functions have names that can be written bare. -/
def AllBare (functions : List String) : Prop :=
  ∀ function ∈ functions, isBareName function = true

theorem AllBare.allPlain {functions : List String} (h : AllBare functions) :
    AllPlain functions :=
  fun function hf => (Bool.and_eq_true_iff.mp (h function hf)).1

theorem AllBare.append_left {fs gs : List String} (h : AllBare (fs ++ gs)) : AllBare fs :=
  (List.forall_mem_append.mp h).1

theorem AllBare.append_right {fs gs : List String} (h : AllBare (fs ++ gs)) : AllBare gs :=
  (List.forall_mem_append.mp h).2

theorem AllBare.of_flatMap {α : Type} {xs : List α} {functions : α → List String}
    (h : AllBare (xs.flatMap functions)) : ∀ x ∈ xs, AllBare (functions x) :=
  fun x hx f hf => h f (List.mem_flatMap.mpr ⟨x, hx, hf⟩)

/-! ## Expressions are read back -/

/-- What an expression would go on with. -/
def exprStops : List Token := [.symbol .dot, .symbol .openParen]

/-- Whether a token can be the first of an expression. -/
def Token.startsExpr : Token → Bool
  | .name _ | .parameter _ | .symbol .openParen | .symbol .star | .keyword .null => true
  | _ => false

/-- An expression starts with a piece that can start one. -/
theorem Expr.exists_fragment_eq_cons {e : Expr} (h : AllBare e.functions) :
    ∃ p f, e.fragment = p :: f ∧
      ∀ bound, ∃ t, p.token? bound = some t ∧ t.startsExpr = true := by
  cases e with
  | column c =>
    obtain ⟨_ | table, name⟩ := c
    · exact ⟨_, _, rfl, fun _ => ⟨_, rfl, rfl⟩⟩
    · exact ⟨_, _, rfl, fun _ => ⟨_, rfl, rfl⟩⟩
  | call function args =>
    refine ⟨_, _, rfl, fun _ => ⟨_, rfl, ?_⟩⟩
    rw [Token.ofBareWord_of_isBareName (h function List.mem_cons_self)]
    rfl
  | _ => exact ⟨_, _, rfl, fun _ => ⟨_, rfl, rfl⟩⟩

section

variable {q : Quoting} {lookup : Nat → Option Value}

/-- No token that cannot start an expression comes before one. -/
theorem Expr.leads_fragment {e : Expr} (h : AllBare e.functions) {stops stops' : List Token}
    (hstops : ∀ t ∈ stops, t.startsExpr = false) (g : Fragment) :
    Leads q stops (e.fragment ++ g) stops' := by
  obtain ⟨p, f, hf, htoken⟩ := e.exists_fragment_eq_cons h
  rw [hf, List.cons_append]
  refine leads_token fun bound => ?_
  obtain ⟨t, ht, hstart⟩ := htoken bound
  refine ⟨t, ht, fun hmem => ?_⟩
  rw [hstops t hmem] at hstart
  cases hstart

theorem reads_bareName {word : String} (h : isBareName word = true) :
    Reads q lookup Reader.name [.verbatim word] word [] :=
  ReadsAt.token rfl (fun _ => congrArg some (Token.ofBareWord_of_isBareName h)) ReadsAt.pure

/-- A name without a dot behind it is a column. -/
theorem reads_column_bare {p : Piece} {word : String}
    (h : Reads q lookup Reader.name [p] word []) :
    Reads q lookup Reader.column [p] ⟨none, word⟩ [.symbol .dot] :=
  Reads.bind (f := [p]) h (ReadsAt.not_accept ReadsAt.pure (leads_nil (List.Subset.refl _)))
    (leads_any _)

theorem reads_column (c : Column) :
    Reads q lookup Reader.column c.fragment c [.symbol .dot] := by
  obtain ⟨_ | table, name⟩ := c
  · exact reads_column_bare (reads_name name)
  · have hname : Reads q lookup
        (Reader.name >>= fun column => pure (Column.mk (some table) column)) [.name name]
        ⟨some table, name⟩ [.symbol .dot] :=
      ((reads_name name).map _).mono (List.nil_subset _)
    exact Reads.bind (f := [.name table]) (reads_name table)
      (ReadsAt.accept rfl (fun _ => rfl) hname) (leads_any _)

theorem readsAt_arithmetic {β : Type} {k : Arithmetic → Reader β} {g : Fragment}
    {value : Nat → β} {stops : List Token} (op : Arithmetic)
    (hk : ReadsAt q lookup (k op) g value stops) :
    ReadsAt q lookup (Reader.arithmetic >>= k) (.symbol op.symbol :: g) value stops := by
  intro bound hvalues rest hrest
  rw [← hk bound hvalues rest hrest, lexemes, List.cons_append, run_bind]
  cases op <;> rfl

theorem reads_literal (v : Value) (depth : Nat) :
    Reads q lookup (Reader.expr lookup (depth + 1)) [.literal v] (.literal v) exprStops := by
  intro bound hvalues rest _
  have hlookup : lookup (bound + 1) = some v := hvalues 0 v rfl
  rw [Reader.expr, lexemes, List.cons_append, run_bind]
  show (match lookup (bound + 1) with
    | some v => (pure (.literal v) : Reader Expr)
    | none => failure) (skip rest) = _
  rw [hlookup]
  rfl

/-- The arguments of a call are read up to the closing parenthesis. -/
theorem reads_arguments {r : Reader Expr} {args : List Expr}
    (hbare : ∀ x ∈ args, AllBare x.functions)
    (h : ∀ x ∈ args, Reads q lookup r x.fragment x exprStops) {limit : Nat}
    (hlimit : args.length ≤ limit) :
    Reads q lookup (Reader.arguments r limit)
      (commaSeparated (args.map Expr.fragment) ++ [.symbol .closeParen]) args [] := by
  cases args with
  | nil => exact ReadsAt.accept rfl (fun _ => rfl) ReadsAt.pure
  | cons x xs =>
    have hlist := reads_separated isSeparator_comma (by decide) (List.cons_ne_nil x xs) hlimit h
    rw [List.map_id'] at hlist
    refine ReadsAt.not_accept (Reads.bind hlist ?_ (leads_symbol (by decide))) ?_
    · exact ReadsAt.expect rfl (fun _ => rfl) ReadsAt.pure
    obtain ⟨g, hg⟩ := exists_joined_cons_eq_append [.symbol .comma, .space] x.fragment
      (xs.map Expr.fragment)
    rw [List.map_cons, commaSeparated, hg, List.append_assoc]
    exact x.leads_fragment (hbare x List.mem_cons_self) (by decide) _

/-- A binary expression stands in parentheses, so both its operands end where a token follows that
neither would go on with. -/
theorem reads_binary {depth : Nat} {left right : Expr} (op : Arithmetic)
    (hleft : Reads q lookup (Reader.expr lookup depth) left.fragment left exprStops)
    (hright : Reads q lookup (Reader.expr lookup depth) right.fragment right exprStops) :
    Reads q lookup (Reader.expr lookup (depth + 1)) (Expr.binary left op right).fragment
      (.binary left op right) exprStops := by
  have hop : .symbol op.symbol ∉ exprStops := by
    cases op <;> decide
  rw [Expr.fragment, spaced_triple, Fragment.parenthesised, List.append_assoc, List.cons_append,
    List.append_assoc, List.cons_append]
  refine ReadsAt.token rfl (fun _ => rfl) ?_
  refine ReadsAt.mono (Reads.bind hleft ?_ (leads_space (leads_symbol hop))) (List.nil_subset _)
  refine ReadsAt.space (readsAt_arithmetic op (ReadsAt.space (Reads.bind hright ?_ ?_)))
  · exact ReadsAt.expect rfl (fun _ => rfl) ReadsAt.pure
  · exact leads_symbol (by decide)

theorem reads_call {depth : Nat} {function : String} (hname : isBareName function = true)
    {args : List Expr} (hbare : ∀ x ∈ args, AllBare x.functions) (hlimit : args.length ≤ depth)
    (h : ∀ x ∈ args, Reads q lookup (Reader.expr lookup depth) x.fragment x exprStops) :
    Reads q lookup (Reader.expr lookup (depth + 1)) (Expr.call function args).fragment
      (.call function args) exprStops := by
  have htoken : ∀ bound, Piece.token? bound (.verbatim function) = some (.name function) :=
    fun _ => congrArg some (Token.ofBareWord_of_isBareName hname)
  rw [Expr.fragment, Expr.fragments_eq_map]
  refine ReadsAt.token rfl htoken ?_
  refine ReadsAt.not_accept (ReadsAt.accept rfl (fun _ => rfl) ?_) (leads_symbol (by decide))
  exact ReadsAt.mono ((reads_arguments hbare h hlimit).map _) (List.nil_subset _)

theorem Expr.exists_eq_succ_of_length_le {e : Expr} (h : AllBare e.functions) {depth : Nat}
    (hdepth : e.fragment.length ≤ depth) : ∃ n, depth = n + 1 := by
  obtain ⟨p, f, hf, -⟩ := e.exists_fragment_eq_cons h
  rw [hf, List.length_cons] at hdepth
  exact Nat.exists_eq_succ_of_ne_zero (by omega)

/-- Every expression is read back from its fragment, whose length bounds how deep it is nested. -/
theorem Expr.reads_fragment {e : Expr} (h : AllBare e.functions) {depth : Nat}
    (hdepth : e.fragment.length ≤ depth) :
    Reads q lookup (Reader.expr lookup depth) e.fragment e exprStops := by
  -- every expression starts with a token, so what it consists of is shorter than it
  induction e generalizing depth with
  | column c =>
    obtain ⟨depth, rfl⟩ := exists_eq_succ_of_length_le h hdepth
    obtain ⟨_ | table, name⟩ := c
    · refine ReadsAt.token (p := .name name) rfl (fun _ => rfl) ?_
      refine ReadsAt.not_accept (ReadsAt.not_accept ReadsAt.pure ?_) ?_
      · exact leads_nil (by decide)
      · exact leads_nil (by decide)
    · refine ReadsAt.token (p := .name table) rfl (fun _ => rfl) ?_
      refine ReadsAt.accept (p := .symbol .dot) rfl (fun _ => rfl) ?_
      exact ReadsAt.mono ((reads_name name).map _) (List.nil_subset _)
  | literal v =>
    obtain ⟨depth, rfl⟩ := exists_eq_succ_of_length_le h hdepth
    exact reads_literal v depth
  | call function args ih =>
    obtain ⟨depth, rfl⟩ := exists_eq_succ_of_length_le h hdepth
    have hbare : ∀ x ∈ args, AllBare x.functions := fun x hx f hf =>
      h f (List.mem_cons_of_mem function (mem_functionsOfAll hx hf))
    rw [Expr.fragment, List.length_cons, length_parenthesised, fragments_eq_map] at hdepth
    obtain ⟨hlimit, hle⟩ := length_items_le isSeparator_comma
      (show (commaSeparated (args.map Expr.fragment)).length ≤ depth - 2 by omega)
    refine reads_call (h function List.mem_cons_self) hbare (by omega) fun x hx => ?_
    have hx' := hle x hx
    exact ih x hx (hbare x hx) (by omega)
  | binary left op right ihl ihr =>
    obtain ⟨depth, rfl⟩ := exists_eq_succ_of_length_le h hdepth
    rw [Expr.fragment, length_parenthesised, spaced_triple] at hdepth
    simp only [List.length_append, List.length_cons] at hdepth
    exact reads_binary op (ihl h.append_left (by omega)) (ihr h.append_right (by omega))
  | null =>
    obtain ⟨depth, rfl⟩ := exists_eq_succ_of_length_le h hdepth
    exact ReadsAt.token rfl (fun _ => rfl) ReadsAt.pure
  | star =>
    obtain ⟨depth, rfl⟩ := exists_eq_succ_of_length_le h hdepth
    exact ReadsAt.token rfl (fun _ => rfl) ReadsAt.pure

end

end SqlSelect
