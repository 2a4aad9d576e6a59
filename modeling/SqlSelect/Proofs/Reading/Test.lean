import SqlSelect.Proofs.Reading.Expr
import Mathlib.Data.List.DropRight

/-!
# Reading tests

The leaves of a condition are tests of values: comparisons, `IS NULL`, membership in a list that is
not empty, and patterns. A test is read together with its text, which is that of its fragment, for a
test neither starts nor ends with a space.
-/

namespace SqlSelect

open Reader Fragment

/-! ## Readers -/

namespace Reader

variable {α : Type}

/-- The text of lexemes, without blanks behind the last token. -/
def sourceOf (xs : List Lexeme) : List Char :=
  (xs.rdropWhile fun x => x.token?.isNone).flatMap Lexeme.source

/-- Read something together with the text it is written in. -/
def withSource (r : Reader α) : Reader (α × List Char) := fun xs =>
  (r xs).map fun p => ((p.1, sourceOf (xs.take (xs.length - p.2.length))), p.2)

/-- The comparison that a token stands for. -/
def comparison? : Token → Option Comparison
  | .symbol .equal => some .equal
  | .symbol .notEqual => some .notEqual
  | .symbol .less => some .less
  | .symbol .lessEqual => some .lessEqual
  | .symbol .greater => some .greater
  | .symbol .greaterEqual => some .greaterEqual
  | _ => none

/-- Read a test that may be negated, behind its operand and its own word. -/
def membership (operand : Reader Expr) (limit : Nat) (e : Expr) (negated : Bool) :
    Token → Reader Condition
  | .keyword .in => do
    let list ← parenthesised (separated (.symbol .comma) operand limit)
    return .inList e list negated
  | .keyword .like => do
    let pattern ← operand
    return .like e pattern negated false
  | .keyword .ilike => do
    let pattern ← operand
    return .like e pattern negated true
  | _ => failure

/-- Read what follows the operand of a test and the token `t` behind it. -/
def testBehind (operand : Reader Expr) (limit : Nat) (e : Expr) (t : Token) :
    Reader Condition :=
  match t with
  | .keyword .is => do
    let negated ← accept (.keyword .not)
    expect (.keyword .null)
    return .isNull e negated
  | .keyword .not => token >>= membership operand limit e true
  | t =>
    match comparison? t with
    | some op => do
      let right ← operand
      return .compare e op right
    | none => membership operand limit e false t

/-- Read a test of values. -/
def test (operand : Reader Expr) (limit : Nat) : Reader Condition := do
  let e ← operand
  let t ← token
  testBehind operand limit e t

end Reader

/-- Whether a condition is a test of values that is written as such: neither a connective nor a
constant. -/
def Condition.isTest : Condition → Bool
  | .compare _ _ _ => true
  | .isNull _ _ => true
  | .inList _ list _ => !list.isEmpty
  | .like _ _ _ _ => true
  | _ => false

/-! ## Reading with the text -/

section

variable {α : Type} {q : Quoting} {lookup : Nat → Option Value}

/-- What is skipped are blanks. -/
theorem exists_blanks_append_skip (xs : List Lexeme) :
    ∃ blanks, xs = blanks ++ skip xs ∧ ∀ x ∈ blanks, x.token?.isNone = true := by
  induction xs with
  | nil => exact ⟨[], rfl, fun _ hx => absurd hx List.not_mem_nil⟩
  | cons x xs ih =>
    obtain ⟨source, _ | t⟩ := x
    · obtain ⟨blanks, hxs, hblanks⟩ := ih
      refine ⟨⟨source, none⟩ :: blanks, ?_, List.forall_mem_cons.mpr ⟨rfl, hblanks⟩⟩
      rw [skip_blank, List.cons_append, ← hxs]
    · exact ⟨[], rfl, fun _ hx => absurd hx List.not_mem_nil⟩

/-- Whether a fragment neither starts nor ends with a space. -/
def Fragment.Tight (f : Fragment) : Prop :=
  (∃ p g, f = p :: g ∧ p ≠ .space) ∧ (∃ g p, f = g ++ [p] ∧ p ≠ .space)

theorem Piece.exists_token?_eq_some {p : Piece} (h : p ≠ .space) (bound : Nat) :
    ∃ t, p.token? bound = some t := by
  cases p with
  | space => exact absurd rfl h
  | _ => exact ⟨_, rfl⟩

theorem Fragment.flatMap_source_lexemes (q : Quoting) (bound : Nat) (f : Fragment) :
    (f.lexemes q bound).flatMap Lexeme.source = f.chars q bound := by
  induction f generalizing bound with
  | nil => rfl
  | cons p f ih =>
    rw [lexemes, List.flatMap_cons, ih, chars_cons, literals_cons, literals_nil, List.append_nil]

/-- The text of a tight fragment is what its lexemes are written in, even with blanks behind. -/
theorem Fragment.Tight.sourceOf_lexemes {f : Fragment} (h : f.Tight) (q : Quoting) (bound : Nat)
    {blanks : List Lexeme} (hblanks : ∀ x ∈ blanks, x.token?.isNone = true) :
    sourceOf (f.lexemes q bound ++ blanks) = f.chars q bound := by
  obtain ⟨-, g, p, rfl, hp⟩ := h
  -- the last piece is a token, so no more than the blanks behind it is dropped
  have hlast : (lexemes q bound (g ++ [p])).rdropWhile (fun x => x.token?.isNone) =
      lexemes q bound (g ++ [p]) := by
    obtain ⟨t, ht⟩ := p.exists_token?_eq_some hp (bound + (literals g).length)
    rw [lexemes_append, lexemes, lexemes, List.rdropWhile_concat_neg]
    rw [ht]
    exact Bool.false_ne_true
  have hdrop : (lexemes q bound (g ++ [p]) ++ blanks).rdropWhile (fun x => x.token?.isNone) =
      (lexemes q bound (g ++ [p])).rdropWhile (fun x => x.token?.isNone) := by
    rw [List.rdropWhile, List.reverse_append, List.dropWhile_append_of_pos, ← List.rdropWhile]
    exact fun x hx => hblanks x (List.mem_reverse.mp hx)
  rw [sourceOf, hdrop, hlast, flatMap_source_lexemes]

/-- A tight fragment is read together with its text. -/
theorem ReadsAt.withSource {r : Reader α} {f : Fragment} {value : Nat → α} {stops : List Token}
    (h : ReadsAt q lookup r f value stops) (hf : f.Tight) :
    ReadsAt q lookup (Reader.withSource r) f (fun bound => (value bound, f.chars q bound))
      stops := by
  intro bound hvalues rest hrest
  obtain ⟨blanks, hblanks, hall⟩ := exists_blanks_append_skip rest
  -- nothing is skipped in front of the fragment, for it starts with a token
  have hskip : skip (f.lexemes q bound ++ rest) = f.lexemes q bound ++ rest := by
    obtain ⟨⟨p, g, rfl, hp⟩, -⟩ := hf
    obtain ⟨t, ht⟩ := p.exists_token?_eq_some hp bound
    rw [lexemes, ht]
    rfl
  have htake : (f.lexemes q bound ++ rest).take
      ((f.lexemes q bound ++ rest).length - (skip rest).length) = f.lexemes q bound ++ blanks := by
    have hlength : (f.lexemes q bound ++ rest).length - (skip rest).length =
        (f.lexemes q bound ++ blanks).length := by
      have hrestLength := congrArg List.length hblanks
      rw [List.length_append] at hrestLength
      rw [List.length_append, List.length_append]
      omega
    rw [hlength, hblanks, ← List.append_assoc, List.take_left' rfl]
  rw [Reader.withSource, h bound hvalues rest hrest, Option.map_some, hskip, htake,
    hf.sourceOf_lexemes q bound hall]

end

/-! ## Tests neither start nor end with a space -/

theorem Fragment.Tight.parenthesised (f : Fragment) : (Fragment.parenthesised f).Tight :=
  ⟨⟨_, _, rfl, nofun⟩, ⟨_, _, (List.cons_append).symm, nofun⟩⟩

theorem Fragment.Tight.singleton {p : Piece} (hp : p ≠ .space) : Fragment.Tight [p] :=
  ⟨⟨p, [], rfl, hp⟩, ⟨[], p, rfl, hp⟩⟩

theorem Fragment.Tight.append {f g : Fragment} (hf : f.Tight) (separator : Fragment)
    (hg : g.Tight) : Fragment.Tight (f ++ separator ++ g) := by
  obtain ⟨⟨p, f, rfl, hp⟩, -⟩ := hf
  obtain ⟨-, g, p', rfl, hp'⟩ := hg
  exact ⟨⟨p, _, rfl, hp⟩, ⟨_, p', (List.append_assoc _ _ _).symm, hp'⟩⟩

theorem Fragment.Tight.spaced {fs : List Fragment} (hnil : fs ≠ []) (h : ∀ f ∈ fs, f.Tight) :
    (Fragment.spaced fs).Tight := by
  induction fs with
  | nil => exact absurd rfl hnil
  | cons f fs ih =>
    have hf := h f List.mem_cons_self
    cases fs with
    | nil => exact hf
    | cons g fs =>
      have hrest := ih (List.cons_ne_nil g fs) fun g' hg' => h g' (List.mem_cons_of_mem f hg')
      exact hf.append _ hrest

theorem tight_keywords {ks : List Keyword} (hnil : ks ≠ []) : (keywords ks).Tight := by
  refine Fragment.Tight.spaced (fun h => hnil (List.map_eq_nil_iff.mp h)) fun f hf => ?_
  obtain ⟨k, -, rfl⟩ := List.mem_map.mp hf
  exact .singleton nofun

theorem Expr.tight_fragment (e : Expr) : e.fragment.Tight := by
  cases e with
  | column c =>
    obtain ⟨_ | table, name⟩ := c
    · exact .singleton nofun
    · exact ⟨⟨_, _, rfl, nofun⟩, ⟨[.name table, .symbol .dot], .name name, rfl, nofun⟩⟩
  | call function args =>
    exact ⟨⟨_, _, rfl, nofun⟩, ⟨.verbatim function :: .symbol .openParen :: _, _, rfl, nofun⟩⟩
  | binary left op right => exact .parenthesised _
  | _ => exact .singleton nofun

theorem Fragment.Tight.spaced_triple {f g h : Fragment} (hf : f.Tight) (hg : g.Tight)
    (hh : h.Tight) : (Fragment.spaced [f, g, h]).Tight := by
  refine .spaced (List.cons_ne_nil _ _) fun f' hf' => ?_
  simp only [List.mem_cons, List.not_mem_nil, or_false] at hf'
  rcases hf' with rfl | rfl | rfl
  · exact hf
  · exact hg
  · exact hh

theorem Condition.tight_fragment {c : Condition} (h : c.isTest = true) : c.fragment.Tight := by
  have hword : ∀ (negated : Bool) (k : Keyword), (keywords (negation negated ++ [k])).Tight :=
    fun negated k => tight_keywords (List.append_ne_nil_of_right_ne_nil _ (List.cons_ne_nil k []))
  cases c with
  | compare left op right =>
    exact .spaced_triple left.tight_fragment (.singleton nofun) right.tight_fragment
  | isNull e negated =>
    exact e.tight_fragment.append [.space] (tight_keywords (List.cons_ne_nil _ _))
  | inList e list negated =>
    cases list with
    | nil => cases h
    | cons x xs => exact .spaced_triple e.tight_fragment (hword negated _) (.parenthesised _)
  | like e pattern negated ignoreCase =>
    exact .spaced_triple e.tight_fragment (hword negated _) pattern.tight_fragment
  | all | any | not => cases h

/-! ## Tests are read back -/

section

variable {q : Quoting} {lookup : Nat → Option Value}

theorem testBehind_comparison (operand : Reader Expr) (limit : Nat) (e : Expr) (op : Comparison) :
    testBehind operand limit e (.symbol op.symbol) = (do
      let right ← operand
      return .compare e op right) := by
  cases op <;> rfl

theorem comparison_not_mem_exprStops (op : Comparison) : .symbol op.symbol ∉ exprStops := by
  cases op <;> decide

/-- A test that may be negated is read from its word on. -/
theorem reads_testBehind_negation {operand : Reader Expr} {limit : Nat} {e : Expr}
    {k : Keyword} (hk : k ∈ [.in, .like, .ilike]) (negated : Bool) {g : Fragment}
    {c : Condition} {stops : List Token}
    (h : Reads q lookup (membership operand limit e negated (.keyword k)) g c stops) :
    Reads q lookup (Reader.token >>= testBehind operand limit e)
      (keywords (Condition.negation negated ++ [k]) ++ g) c stops := by
  cases negated with
  | true =>
    exact ReadsAt.token rfl (fun _ => rfl) (ReadsAt.space (ReadsAt.token rfl (fun _ => rfl) h))
  | false =>
    refine ReadsAt.token rfl (fun _ => rfl) ?_
    simp only [List.mem_cons, List.not_mem_nil, or_false] at hk
    rcases hk with rfl | rfl | rfl <;> exact h

theorem leads_negation {k : Keyword} (hk : k ∈ [.in, .like, .ilike]) (negated : Bool)
    {g : Fragment} {stops : List Token} :
    Leads q exprStops (keywords (Condition.negation negated ++ [k]) ++ g) stops := by
  cases negated with
  | true => exact leads_keyword (by decide)
  | false =>
    simp only [List.mem_cons, List.not_mem_nil, or_false] at hk
    rcases hk with rfl | rfl | rfl <;> exact leads_keyword (by decide)

section

variable {operand : Reader Expr} {limit : Nat}

theorem reads_compare {left right : Expr} (op : Comparison)
    (hleft : Reads q lookup operand left.fragment left exprStops)
    (hright : Reads q lookup operand right.fragment right exprStops) :
    Reads q lookup (Reader.test operand limit) (Condition.compare left op right).fragment
      (.compare left op right) exprStops := by
  rw [Condition.fragment, spaced_triple]
  refine Reads.bind hleft ?_ (leads_space (leads_symbol (comparison_not_mem_exprStops op)))
  refine ReadsAt.space (ReadsAt.token rfl (fun _ => rfl) ?_)
  rw [testBehind_comparison]
  exact ReadsAt.space (hright.map _)

theorem reads_isNull {e : Expr} (he : Reads q lookup operand e.fragment e exprStops)
    (negated : Bool) :
    Reads q lookup (Reader.test operand limit) (Condition.isNull e negated).fragment
      (.isNull e negated) exprStops := by
  rw [Condition.fragment, spaced_pair]
  cases negated with
  | true =>
    refine Reads.bind he ?_ (leads_space (leads_keyword (by decide)))
    refine ReadsAt.space (ReadsAt.token rfl (fun _ => rfl) (ReadsAt.space ?_))
    refine ReadsAt.accept rfl (fun _ => rfl) (ReadsAt.space ?_)
    exact ReadsAt.expect rfl (fun _ => rfl) ReadsAt.pure
  | false =>
    refine Reads.bind he ?_ (leads_space (leads_keyword (by decide)))
    refine ReadsAt.space (ReadsAt.token rfl (fun _ => rfl) (ReadsAt.space ?_))
    refine ReadsAt.not_accept ?_ (leads_keyword (by decide))
    exact ReadsAt.expect rfl (fun _ => rfl) ReadsAt.pure

theorem fragment_inList {list : List Expr} (hnil : list ≠ []) (e : Expr) (negated : Bool) :
    (Condition.inList e list negated).fragment =
      Fragment.spaced [e.fragment, keywords (Condition.negation negated ++ [.in]),
        Fragment.parenthesised (commaSeparated (list.map Expr.fragment))] := by
  rw [Condition.fragment]
  exact hnil

theorem reads_inList {e : Expr} (he : Reads q lookup operand e.fragment e exprStops)
    {list : List Expr} (hnil : list ≠ []) (hlimit : list.length ≤ limit)
    (hlist : ∀ x ∈ list, Reads q lookup operand x.fragment x exprStops) (negated : Bool) :
    Reads q lookup (Reader.test operand limit) (Condition.inList e list negated).fragment
      (.inList e list negated) exprStops := by
  have hitems := reads_separated isSeparator_comma (by decide) hnil hlimit hlist
  rw [List.map_id'] at hitems
  have hparen := hitems.parenthesised (by decide)
  rw [fragment_inList hnil, spaced_triple]
  refine Reads.bind he (ReadsAt.space ?_) (leads_space (leads_negation (by decide) negated))
  refine reads_testBehind_negation (by decide) negated (ReadsAt.space ?_)
  exact ReadsAt.mono (hparen.map _) (List.nil_subset _)

theorem reads_like {e pattern : Expr} (he : Reads q lookup operand e.fragment e exprStops)
    (hpattern : Reads q lookup operand pattern.fragment pattern exprStops)
    (negated ignoreCase : Bool) :
    Reads q lookup (Reader.test operand limit)
      (Condition.like e pattern negated ignoreCase).fragment
      (.like e pattern negated ignoreCase) exprStops := by
  have hword : (if ignoreCase then Keyword.ilike else .like) ∈ [.in, .like, .ilike] := by
    cases ignoreCase <;> decide
  rw [Condition.fragment, spaced_triple]
  refine Reads.bind he (ReadsAt.space ?_) (leads_space (leads_negation hword negated))
  refine reads_testBehind_negation hword negated (ReadsAt.space ?_)
  cases ignoreCase with
  | true => exact hpattern.map _
  | false => exact hpattern.map _

end

/-- A test that is written as such is read back, for its expressions are shorter than it. -/
theorem Condition.reads_test {c : Condition} (htest : c.isTest = true)
    (h : AllBare c.functions) {depth : Nat} (hdepth : c.fragment.length ≤ depth) :
    Reads q lookup (Reader.test (Reader.expr lookup depth) depth) c.fragment c exprStops := by
  cases c with
  | compare left op right =>
    rw [Condition.fragment, spaced_triple] at hdepth
    simp only [List.length_append, List.length_cons] at hdepth
    exact reads_compare op (left.reads_fragment h.append_left (by omega))
      (right.reads_fragment h.append_right (by omega))
  | isNull e negated =>
    rw [Condition.fragment, spaced_pair, List.length_append] at hdepth
    exact reads_isNull (e.reads_fragment h (by omega)) negated
  | inList e list negated =>
    cases list with
    | nil => cases htest
    | cons x xs =>
      have hnil : x :: xs ≠ [] := List.cons_ne_nil x xs
      rw [fragment_inList hnil, spaced_triple] at hdepth
      simp only [List.length_append, List.length_cons, length_parenthesised] at hdepth
      obtain ⟨hlimit, hle⟩ := length_items_le isSeparator_comma
        (show (commaSeparated ((x :: xs).map Expr.fragment)).length ≤ depth - 2 by omega)
      have he : Reads q lookup (Reader.expr lookup depth) e.fragment e exprStops :=
        e.reads_fragment h.append_left (by omega)
      refine reads_inList he hnil (by omega) (fun y hy => ?_) negated
      have hy' := hle y hy
      exact y.reads_fragment (h.append_right.of_flatMap y hy) (by omega)
  | like e pattern negated ignoreCase =>
    rw [Condition.fragment, spaced_triple] at hdepth
    simp only [List.length_append, List.length_cons] at hdepth
    exact reads_like (e.reads_fragment h.append_left (by omega))
      (pattern.reads_fragment h.append_right (by omega)) negated ignoreCase
  | all | any | not => cases htest

theorem keyword_not_mem_exprStops (k : Keyword) : .keyword k ∉ exprStops := by
  cases k <;> decide

theorem exists_keywords_eq_cons (k : Keyword) (ks : List Keyword) :
    ∃ g, keywords (k :: ks) = .keyword k :: g := by
  cases ks with
  | nil => exact ⟨_, rfl⟩
  | cons k' ks => exact ⟨_, rfl⟩

/-- A test is an expression with a word or a comparison behind it. -/
theorem Condition.exists_fragment_eq_append {c : Condition} (htest : c.isTest = true)
    (h : AllBare c.functions) :
    ∃ (e : Expr) (p : Piece) (g : Fragment) (t : Token),
      c.fragment = e.fragment ++ .space :: p :: g ∧ AllBare e.functions ∧
      p.literal? = none ∧ (∀ bound, p.token? bound = some t) ∧ arithmetic? t = none ∧
      t ∉ exprStops := by
  -- behind the operand of every test but a comparison stands a keyword
  have hword : ∀ (k : Keyword) (ks : List Keyword) (f : Fragment),
      ∃ p g t, keywords (k :: ks) ++ f = p :: g ∧ p.literal? = none ∧
        (∀ bound, p.token? bound = some t) ∧ arithmetic? t = none ∧ t ∉ exprStops := by
    intro k ks f
    obtain ⟨g, hg⟩ := exists_keywords_eq_cons k ks
    rw [hg]
    exact ⟨_, g ++ f, _, rfl, rfl, fun _ => rfl, rfl, keyword_not_mem_exprStops k⟩
  cases c with
  | compare left op right =>
    refine ⟨left, .symbol op.symbol, .space :: right.fragment, .symbol op.symbol, ?_,
      h.append_left, rfl, fun _ => rfl, ?_, comparison_not_mem_exprStops op⟩
    · rw [Condition.fragment, spaced_triple, List.singleton_append]
    · cases op <;> rfl
  | isNull e negated =>
    obtain ⟨p, g, t, hg, hp, ht, hnone, hstop⟩ := hword .is (negation negated ++ [.null]) []
    rw [List.append_nil] at hg
    refine ⟨e, p, g, t, ?_, h, hp, ht, hnone, hstop⟩
    rw [Condition.fragment, spaced_pair, hg]
  | inList e list negated =>
    cases list with
    | nil => cases htest
    | cons x xs =>
      obtain ⟨k, ks, hks⟩ := List.exists_cons_of_ne_nil
        (List.append_ne_nil_of_right_ne_nil (negation negated) (List.cons_ne_nil Keyword.in []))
      obtain ⟨p, g, t, hg, hp, ht, hnone, hstop⟩ := hword k ks
        (.space :: Fragment.parenthesised (commaSeparated ((x :: xs).map Expr.fragment)))
      refine ⟨e, p, g, t, ?_, h.append_left, hp, ht, hnone, hstop⟩
      rw [fragment_inList (List.cons_ne_nil x xs), spaced_triple, hks, hg]
  | like e pattern negated ignoreCase =>
    obtain ⟨k, ks, hks⟩ := List.exists_cons_of_ne_nil
      (List.append_ne_nil_of_right_ne_nil (negation negated)
        (List.cons_ne_nil (if ignoreCase then Keyword.ilike else .like) []))
    obtain ⟨p, g, t, hg, hp, ht, hnone, hstop⟩ := hword k ks (.space :: pattern.fragment)
    refine ⟨e, p, g, t, ?_, h.append_left, hp, ht, hnone, hstop⟩
    rw [Condition.fragment, spaced_triple, hks, hg]
  | all | any | not => cases htest

end

end SqlSelect
