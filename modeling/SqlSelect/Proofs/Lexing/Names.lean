import SqlSelect.Proofs.Lexing.Spacing
import SqlSelect.Proofs.Naming.Names
import SqlSelect.Proofs.Relabeling

/-!
# Names stay inside their tokens

Each name of a query and each function that it calls is one token, which holds it as it is. Erasing
the names keeps everything else, the names of the functions included. A fragment is erased piece by
piece, and its tokens are erased one by one, so the kinds of the tokens of a statement do not depend
on its names.
-/

namespace SqlSelect

open Fragment Lexing

/-! ## Erasing names -/

/-- A column with empty names. -/
def Column.eraseNames (c : Column) : Column := ⟨c.table.map fun _ => "", ""⟩

/-- A table with empty names. -/
def TableRef.eraseNames (t : TableRef) : TableRef :=
  ⟨t.schema.map fun _ => "", "", t.label.map fun _ => ""⟩

namespace Expr

mutual

/-- An expression with empty names. -/
def eraseNames : Expr → Expr
  | .column c => .column c.eraseNames
  | .literal v => .literal v
  | .call function args => .call function (eraseNamesOfAll args)
  | .binary left op right => .binary left.eraseNames op right.eraseNames
  | .null => .null
  | .star => .star

/-- Expressions with empty names. -/
def eraseNamesOfAll : List Expr → List Expr
  | [] => []
  | x :: xs => x.eraseNames :: eraseNamesOfAll xs

end

theorem eraseNamesOfAll_eq_map (xs : List Expr) : eraseNamesOfAll xs = xs.map eraseNames := by
  induction xs with
  | nil => rfl
  | cons x xs ih => rw [eraseNamesOfAll, ih, List.map_cons]

end Expr

namespace Condition

mutual

/-- A condition with empty names. -/
def eraseNames : Condition → Condition
  | .all members => .all (eraseNamesOfAll members)
  | .any members => .any (eraseNamesOfAll members)
  | .not c => .not c.eraseNames
  | .compare left op right => .compare left.eraseNames op right.eraseNames
  | .isNull e negated => .isNull e.eraseNames negated
  | .inList e list negated => .inList e.eraseNames (list.map Expr.eraseNames) negated
  | .like e pattern negated ignoreCase =>
    .like e.eraseNames pattern.eraseNames negated ignoreCase

/-- Conditions with empty names. -/
def eraseNamesOfAll : List Condition → List Condition
  | [] => []
  | c :: cs => c.eraseNames :: eraseNamesOfAll cs

end

theorem eraseNamesOfAll_eq_map (cs : List Condition) :
    eraseNamesOfAll cs = cs.map eraseNames := by
  induction cs with
  | nil => rfl
  | cons c cs ih => rw [eraseNamesOfAll, ih, List.map_cons]

end Condition

/-- A projection with empty names. -/
def Projection.eraseNames : Projection → Projection
  | .all => .all
  | .allOf _ => .allOf ""
  | .expr e label => .expr e.eraseNames (label.map fun _ => "")

/-- A sort key with empty names. -/
def SortKey.eraseNames (k : SortKey) : SortKey :=
  { k with expression := k.expression.eraseNames }

/-- A join with empty names. -/
def Join.eraseNames (j : Join) : Join :=
  ⟨j.kind, j.table.eraseNames, j.condition.eraseNames⟩

/-- A statement with empty names of columns, tables, schemas and aliases. Two statements that differ
in such names only are the same statement then. -/
def Select.eraseNames (s : Select) : Select where
  distinct := s.distinct.map (List.map Column.eraseNames)
  projections := s.projections.map Projection.eraseNames
  tables := s.tables.map TableRef.eraseNames
  joins := s.joins.map Join.eraseNames
  condition := s.condition.map Condition.eraseNames
  groups := s.groups.map Projection.eraseNames
  sorts := s.sorts.map SortKey.eraseNames
  limit := s.limit
  offset := s.offset

/-- A piece with an empty name. Text that is written as it is stays. -/
def Piece.eraseName : Piece → Piece
  | .name _ => .name ""
  | p => p

/-- A fragment with empty names. -/
def Fragment.eraseNames (f : Fragment) : Fragment := f.map Piece.eraseName

/-- A token with an empty name: what is left of it is its kind. -/
def Token.eraseName : Token → Token
  | .name _ => .name ""
  | t => t

/-- The word of a token, bare or in quotes. -/
def Token.word? : Token → Option String
  | .name word => some word
  | .reserved word => some word
  | _ => none

/-- The number of a placeholder. -/
def Token.parameter? : Token → Option Nat
  | .parameter n => some n
  | _ => none

/-! ## Erasing the names of a fragment -/

namespace Fragment

/-- The kinds of the tokens of a fragment do not depend on its names. -/
theorem map_eraseName_tokens (bound : Nat) (f : Fragment) :
    (f.eraseNames.tokens bound).map Token.eraseName = (f.tokens bound).map Token.eraseName := by
  induction f generalizing bound with
  | nil => rfl
  | cons p f ih =>
    have hliteral : p.eraseName.literal? = p.literal? := by cases p <;> rfl
    have htoken : (p.eraseName.token? bound).map Token.eraseName =
        (p.token? bound).map Token.eraseName := by
      cases p <;> rfl
    rw [eraseNames, List.map_cons, tokens, tokens, List.map_append, List.map_append, hliteral,
      ← Option.toList_map, ← Option.toList_map, htoken]
    exact congrArg _ (ih _)

/-- The words among the tokens of a fragment are its own. -/
theorem filterMap_word?_tokens (bound : Nat) (f : Fragment) :
    (f.tokens bound).filterMap Token.word? = f.words.map Word.text := by
  induction f generalizing bound with
  | nil => rfl
  | cons p f ih =>
    have htoken : (p.token? bound).toList.filterMap Token.word? =
        p.word?.toList.map Word.text := by
      cases p with
      | verbatim text =>
        show [Token.ofBareWord text].filterMap Token.word? = [text]
        rw [Token.ofBareWord]
        split <;> rfl
      | _ => rfl
    rw [tokens, List.filterMap_append, htoken, ih, words_cons, List.map_append]

/-- The parameters of a fragment are its literals, numbered behind the values bound before. -/
theorem filterMap_parameter?_tokens (bound : Nat) (f : Fragment) :
    (f.tokens bound).filterMap Token.parameter? = List.range' (bound + 1) f.literals.length := by
  induction f generalizing bound with
  | nil => rfl
  | cons p f ih =>
    have htoken : (p.token? bound).toList.filterMap Token.parameter? =
        List.range' (bound + 1) p.literal?.toList.length := by
      cases p with
      | verbatim text =>
        -- a bare word is a name or a reserved word
        show [Token.ofBareWord text].filterMap Token.parameter? = []
        rw [Token.ofBareWord]
        split <;> rfl
      | _ => rfl
    rw [tokens, List.filterMap_append, htoken, ih, literals_cons, List.length_append,
      Nat.add_right_comm, List.range'_append_1]

/-- Whether a fragment can be read does not depend on its names. -/
theorem readable_eraseNames {f : Fragment} : Readable (eraseNames f) ↔ Readable f := by
  -- a name is a word whatever its characters are, and only verbatim text has to be plain
  have hclings : ∀ p p' : Piece, p.eraseName.Clings p'.eraseName ↔ p.Clings p' := by
    intro p p'
    cases p <;> cases p' <;> rfl
  have hplain : ∀ p : Piece, p.eraseName.IsPlain ↔ p.IsPlain := by
    intro p
    cases p <;> rfl
  have hloose : Loose (eraseNames f) ↔ Loose f := by
    rw [Loose, eraseNames, List.isChain_map]
    simp only [hclings, Loose]
  have hall : IsPlain (eraseNames f) ↔ IsPlain f := by
    rw [IsPlain, eraseNames, List.forall_mem_map]
    simp only [hplain, IsPlain]
  exact ⟨fun h => ⟨hloose.mp h.loose, hall.mp h.plain⟩,
    fun h => ⟨hloose.mpr h.loose, hall.mpr h.plain⟩⟩

end Fragment

/-! ## Erasing the names of a query -/

/-- The relabeling that empties every name and keeps every literal. -/
def Relabeling.eraseNames : Relabeling where
  name _ := ""

theorem Fragment.eraseNames_eq_relabel (f : Fragment) : f.eraseNames = f.relabel .eraseNames := by
  refine List.map_congr_left fun p _ => ?_
  cases p <;> rfl

theorem Expr.eraseNames_eq_relabel (e : Expr) : e.eraseNames = e.relabel .eraseNames := by
  induction e with
  | column c => rfl
  | literal v => rfl
  | call function args ih =>
    rw [eraseNames, relabel, eraseNamesOfAll_eq_map, relabelAll_eq_map, List.map_congr_left ih]
  | binary left op right ihl ihr => rw [eraseNames, relabel, ihl, ihr]
  | null => rfl
  | star => rfl

theorem Condition.eraseNames_eq_relabel (c : Condition) :
    c.eraseNames = c.relabel .eraseNames := by
  have hexpr : Expr.eraseNames = Expr.relabel .eraseNames := funext Expr.eraseNames_eq_relabel
  induction c with
  | all members ih | any members ih =>
    rw [eraseNames, relabel, eraseNamesOfAll_eq_map, relabelAll_eq_map, List.map_congr_left ih]
  | not c ih => rw [eraseNames, relabel, ih]
  | _ => simp only [eraseNames, relabel, hexpr]

theorem Projection.eraseNames_eq_relabel (p : Projection) :
    p.eraseNames = p.relabel .eraseNames := by
  cases p with
  | all => rfl
  | allOf table => rfl
  | expr e label => rw [eraseNames, e.eraseNames_eq_relabel]; rfl

namespace Select

theorem eraseNames_eq_relabel (s : Select) : s.eraseNames = s.relabel .eraseNames := by
  have hprojections : Projection.eraseNames = Projection.relabel .eraseNames :=
    funext Projection.eraseNames_eq_relabel
  have hconditions : Condition.eraseNames = Condition.relabel .eraseNames :=
    funext Condition.eraseNames_eq_relabel
  have hjoins : Join.eraseNames = Join.relabel .eraseNames := by
    funext j
    rw [Join.eraseNames, Join.relabel, j.condition.eraseNames_eq_relabel]
    rfl
  have hsorts : SortKey.eraseNames = SortKey.relabel .eraseNames := by
    funext k
    rw [SortKey.eraseNames, SortKey.relabel, k.expression.eraseNames_eq_relabel]
  rw [eraseNames, relabel, hprojections, hconditions, hjoins, hsorts]
  rfl

/-- The fragment of a statement with empty names is its fragment with empty names. -/
theorem fragment_eraseNames (s : Select) : s.eraseNames.fragment = s.fragment.eraseNames := by
  rw [eraseNames_eq_relabel, fragment_relabel, Fragment.eraseNames_eq_relabel]

/-- Statements that differ in names only can be read alike. -/
theorem readable_of_eraseNames_eq {s t : Select} (h : t.eraseNames = s.eraseNames)
    (hs : s.fragment.Readable) : t.fragment.Readable := by
  rw [← readable_eraseNames, ← t.fragment_eraseNames, h, s.fragment_eraseNames]
  exact readable_eraseNames.mpr hs

/-- Statements that differ in names only have the same kinds of tokens. -/
theorem map_eraseName_tokens_eq {s t : Select} (h : t.eraseNames = s.eraseNames) (bound : Nat) :
    (t.fragment.tokens bound).map Token.eraseName =
      (s.fragment.tokens bound).map Token.eraseName := by
  rw [← map_eraseName_tokens bound t.fragment, ← t.fragment_eraseNames, h, s.fragment_eraseNames,
    map_eraseName_tokens]

/-- The text of a statement that calls functions of plain names is cut into the tokens of the
statement, whatever its other names are and however they are quoted. Each name and each function is
one token that holds it as it is, in the order of the statement, and the literals are the parameters
behind the values bound before. A statement that differs in names only has tokens of the same
kinds. -/
theorem tokens?_fragment {s : Select} (h : AllPlain s.functions) (binds : List Value) :
    (∀ q ≠ Quoting.never,
      tokens? (s.fragment.write q binds).text = some (s.fragment.tokens binds.length)) ∧
    (s.fragment.tokens binds.length).filterMap Token.word? = s.words.map Word.text ∧
    s.words.filterMap Word.name? = s.names ∧
    (s.fragment.tokens binds.length).filterMap Token.parameter? =
      List.range' (binds.length + 1) s.literals.length ∧
    ∀ t : Select, t.eraseNames = s.eraseNames → ∀ q ≠ Quoting.never, ∃ tokens,
      tokens? (t.fragment.write q binds).text = some tokens ∧
      tokens.map Token.eraseName = (s.fragment.tokens binds.length).map Token.eraseName := by
  have hs : s.fragment.Readable := readable_fragment h
  refine ⟨fun q hq => Fragment.tokens?_write hq hs.loose hs.plain binds, ?_, s.names_words, ?_,
    fun t ht q hq => ?_⟩
  · rw [filterMap_word?_tokens, words_fragment]
  · rw [filterMap_parameter?_tokens, literals_fragment]
  · have hkinds := map_eraseName_tokens_eq ht binds.length
    have ht : t.fragment.Readable := readable_of_eraseNames_eq ht hs
    exact ⟨_, Fragment.tokens?_write hq ht.loose ht.plain binds, hkinds⟩

theorem tokens?_fragment_hostile :
    tokens? ((Fragment.write (Select.fragment
      { projections := [.expr (.call "lower" [.column ⟨some "a\"; --", "$1"⟩]) (some "select")]
        tables := [⟨some "", "x.y", none⟩] }) .whenNeeded []).text) =
      some [.keyword .select, .name "lower", .symbol .openParen, .name "a\"; --", .symbol .dot,
        .name "$1", .symbol .closeParen, .keyword .as, .name "select", .keyword .from, .name "",
        .symbol .dot, .name "x.y"] := by
  refine ((tokens?_fragment ?_ []).1 .whenNeeded (by decide)).trans (by decide)
  intro function hfunction
  cases List.mem_singleton.mp hfunction
  decide

end Select

end SqlSelect
