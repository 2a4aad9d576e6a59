import SqlSelect.Proofs.Binding.Agreement
import SqlSelect.Proofs.Lexing.Fragment
import SqlSelect.Proofs.Naming.Conversion

/-!
# Wildcards among the groups

A wildcard groups by nothing. Given as such, of all columns or of one table, it is left out of the
groups, and so is the clause if nothing else is in it. The projection list writes one more thing as
a wildcard: the expression that is only a star. As a group it is written as well, since groups are
told apart by their form and not by their text. So wildcards can be deleted from the groups without
a trace exactly if none of them is given as an expression (`Select.write_groups`); otherwise the
stars of these are what goes.
-/

namespace SqlSelect

open Fragment

/-! ## What does not end in a star -/

/-- The text has a last character, and this is no star. -/
def EndsUnstarred (text : List Char) : Prop := ∃ c, text.getLast? = some c ∧ c ≠ '*'

theorem EndsUnstarred.append {text : List Char} (h : EndsUnstarred text) (before : List Char) :
    EndsUnstarred (before ++ text) := by
  obtain ⟨c, hlast, hc⟩ := h
  refine ⟨c, ?_, hc⟩
  rw [List.getLast?_append, hlast, Option.some_or]

theorem endsUnstarred_of_isWordChar {run : List Char} (hnil : run ≠ [])
    (h : ∀ c ∈ run, Lexing.isWordChar c = true) : EndsUnstarred run := by
  refine ⟨run.getLast hnil, List.getLast?_eq_some_getLast hnil, fun hstar => ?_⟩
  have hword := h _ (List.getLast_mem hnil)
  rw [hstar] at hword
  exact absurd hword (by decide)

/-- A name that is quoted where it must be ends in a quote or in a character of words. -/
theorem Quoting.endsUnstarred_nameChars {q : Quoting} (hq : q ≠ .never) (name : String) :
    EndsUnstarred (q.nameChars name) := by
  rw [nameChars]
  split
  · rw [quotedName, ← List.cons_append]
    exact EndsUnstarred.append ⟨'"', rfl, by decide⟩ _
  · rename_i hquotes
    have hbare := q.isBareName_of_not_quotes hq (Bool.eq_false_iff.mpr hquotes)
    have hplain := (Bool.and_eq_true_iff.mp hbare).1
    exact endsUnstarred_of_isWordChar (Lexing.ne_nil_of_isPlainName hplain)
      (Lexing.isWordChar_of_mem_plainName hplain)

/-- A fragment ends as its last piece does. -/
theorem Fragment.endsUnstarred_chars {q : Quoting} (f : Fragment) (p : Piece)
    (h : ∀ bound, EndsUnstarred (p.chars q bound)) (bound : Nat) :
    EndsUnstarred (Fragment.chars q bound (f ++ [p])) := by
  rw [chars_append, chars_cons, chars, List.append_nil]
  exact (h _).append _

/-- Every expression but the star ends in something else. -/
theorem Expr.endsUnstarred_fragment {q : Quoting} (hq : q ≠ .never) {e : Expr} (he : e ≠ .star)
    (bound : Nat) : EndsUnstarred (e.fragment.chars q bound) := by
  have hname : ∀ (f : Fragment) (name : String),
      EndsUnstarred (Fragment.chars q bound (f ++ [.name name])) := fun f name =>
    f.endsUnstarred_chars (.name name) (fun _ => q.endsUnstarred_nameChars hq name) bound
  have hclosed : ∀ f : Fragment,
      EndsUnstarred (Fragment.chars q bound (f ++ [.symbol .closeParen])) := fun f =>
    f.endsUnstarred_chars (.symbol .closeParen) (fun _ => ⟨')', rfl, by decide⟩) bound
  -- the last piece is a name, a placeholder, a closing parenthesis or a keyword
  cases e with
  | column c =>
    obtain ⟨table, name⟩ := c
    cases table with
    | none => exact hname [] name
    | some table => exact hname [.name table, .symbol .dot] name
  | literal v =>
    have hplaceholder : ∀ n, EndsUnstarred (placeholder n) := fun n =>
      endsUnstarred_of_isWordChar (List.cons_ne_nil _ _) Lexing.isWordChar_of_mem_placeholder
    exact endsUnstarred_chars [] (.literal v) (fun _ => hplaceholder _) bound
  | call function args =>
    exact hclosed (.verbatim function :: .symbol .openParen :: commaSeparated (fragments args))
  | binary left op right =>
    exact hclosed (.symbol .openParen ::
      spaced [left.fragment, [.symbol op.symbol], right.fragment])
  | null => exact endsUnstarred_chars [] (.keyword .null) (fun _ => ⟨'L', rfl, by decide⟩) bound
  | star => exact absurd rfl he

/-! ## Wildcards in all their forms -/

/-- Text that names a wildcard ends in a star. -/
theorem IsWildcard.not_endsUnstarred {text : String} (h : IsWildcard text) :
    ¬ EndsUnstarred text.toList := by
  have hlast : text.toList.getLast? = some '*' := by
    rcases h with rfl | ⟨table, rfl⟩
    · rfl
    · rw [String.toList_append, List.getLast?_append]
      rfl
  rintro ⟨c, hc, hstar⟩
  rw [hlast] at hc
  exact hstar (Option.some.inj hc).symm

/-- Whether an expression is only a star. -/
def Expr.isStar : Expr → Bool
  | .star => true
  | _ => false

theorem Expr.isStar_iff {e : Expr} : e.isStar = true ↔ e = .star := by
  cases e <;> simp [isStar]

section

variable {q : Quoting} (hq : q ≠ .never)
include hq

theorem Expr.isWildcard_text_iff (e : Expr) (binds : List Value) :
    IsWildcard (e.fragment.write q binds).text ↔ e = .star := by
  constructor
  · intro h
    by_contra he
    refine h.not_endsUnstarred ?_
    rw [Fragment.write, String.toList_ofList]
    exact e.endsUnstarred_fragment hq he _
  · rintro rfl
    exact .inl rfl

theorem Expr.text_eq_star_iff (e : Expr) (binds : List Value) :
    (e.fragment.write q binds).text = "*" ↔ e = .star := by
  refine ⟨fun h => (e.isWildcard_text_iff hq binds).mp (.inl h), ?_⟩
  rintro rfl
  rfl

end

namespace Projection

/-- A projection without its alias. -/
def unlabelled : Projection → Projection
  | .expr e _ => .expr e none
  | p => p

/-- Whether a projection is a wildcard, given as such or as an expression under any alias. -/
def isWildcard : Projection → Bool
  | .all => true
  | .allOf _ => true
  | .expr e _ => e.isStar

/-- The wildcards are what the projection list writes as one, aliases aside. -/
theorem isWildcard_iff {q : Quoting} (hq : q ≠ .never) (p : Projection) (binds : List Value) :
    p.isWildcard = true ↔ IsWildcard (p.unlabelled.fragment.write q binds).text := by
  cases p with
  | all => exact iff_of_true rfl (.inl rfl)
  | allOf table =>
    refine iff_of_true rfl (.inr ⟨q.quote table, ?_⟩)
    simp [unlabelled, fragment, text_cons, text_nil, Piece.chars, Symbol.spelling, Quoting.quote]
  | expr e label => exact Expr.isStar_iff.trans (e.isWildcard_text_iff hq binds).symm

/-- Wildcards bind nothing. -/
theorem literals_of_isWildcard {p : Projection} (h : p.isWildcard = true) : p.literals = [] := by
  cases p with
  | all => rfl
  | allOf table => rfl
  | expr e label =>
    rw [Expr.isStar_iff.mp h]
    rfl

theorem literals_filter_isWildcard (groups : List Projection) :
    (groups.filter fun p => !p.isWildcard).flatMap literals = groups.flatMap literals := by
  induction groups with
  | nil => rfl
  | cons p groups ih =>
    cases h : p.isWildcard with
    | false =>
      rw [List.filter_cons_of_pos (by rw [h, Bool.not_false]), List.flatMap_cons, ih,
        List.flatMap_cons]
    | true =>
      rw [List.filter_cons_of_neg (by simp [h]), List.flatMap_cons, literals_of_isWildcard h, ih,
        List.nil_append]

/-- Of the groups that are no wildcards, the expressions that are grouped by are those that are more
than a star. -/
theorem grouped?_filter_isWildcard (groups : List Projection) :
    (groups.filter fun p => !p.isWildcard).filterMap grouped? =
      (groups.filterMap grouped?).filter fun e => !e.isStar := by
  rw [List.filterMap_filter, List.filter_filterMap]
  refine List.filterMap_congr fun p _ => ?_
  cases p with
  | all => rfl
  | allOf table => rfl
  | expr e label =>
    rw [isWildcard, grouped?, Option.filter_some]

end Projection

/-! ## The texts of the groups -/

/-- Without the expressions that are only a star, the texts of expressions lack these stars; since a
star binds nothing, the others keep their placeholders. -/
theorem writeEach_filter_isStar {q : Quoting} (hq : q ≠ .never) (binds : List Value)
    (es : List Expr) :
    writeEach q binds ((es.filter fun e => !e.isStar).map Expr.fragment) =
      (writeEach q binds (es.map Expr.fragment)).filter (· ≠ "*") := by
  induction es generalizing binds with
  | nil => rfl
  | cons e es ih =>
    rw [List.map_cons, writeEach]
    by_cases he : e = .star
    · subst he
      have htext : (Expr.star.fragment.write q binds).text = "*" := rfl
      have hbinds : binds ++ Expr.star.fragment.literals = binds := List.append_nil binds
      rw [htext, hbinds, List.filter_cons_of_neg (by decide), List.filter_cons_of_neg (by decide),
        ih]
    · have hstar : e.isStar = false := Bool.eq_false_iff.mpr fun h => he (Expr.isStar_iff.mp h)
      have htext : (e.fragment.write q binds).text ≠ "*" := fun h =>
        he ((e.text_eq_star_iff hq binds).mp h)
      rw [List.filter_cons_of_pos (by rw [hstar, Bool.not_false]), List.map_cons, writeEach, ih,
        List.filter_cons_of_pos (by simpa using htext)]

theorem star_mem_writeEach_iff {q : Quoting} (hq : q ≠ .never) (binds : List Value)
    (es : List Expr) : "*" ∈ writeEach q binds (es.map Expr.fragment) ↔ .star ∈ es := by
  induction es generalizing binds with
  | nil => simp [writeEach]
  | cons e es ih =>
    rw [List.map_cons, writeEach, List.mem_cons, List.mem_cons, ih, eq_comm,
      e.text_eq_star_iff hq, eq_comm]

/-- Texts can be put together in two goes, the first of them into one text. -/
theorem intercalate_append_eq {separator : String} {xs : List String} (hxs : xs ≠ [])
    (ys : List String) :
    separator.intercalate (xs ++ ys) =
      separator.intercalate ([separator.intercalate xs] ++ ys) := by
  by_cases hys : ys = []
  · rw [hys, List.append_nil, List.append_nil, String.intercalate_singleton]
  · rw [String.intercalate_append_of_ne_nil hxs hys,
      String.intercalate_append_of_ne_nil (List.cons_ne_nil _ _) hys, String.intercalate_singleton]

namespace Select

/-- The clauses in front of the groups. -/
def beforeGroups (s : Select) : Select :=
  { s with groups := [], sorts := [], limit := none, offset := none }

/-- The texts of the groups that are written: expressions without their aliases, one after another
behind the values of the clauses before. -/
def groupTexts (q : Quoting) (binds : List Value) (s : Select) : List String :=
  writeEach q (s.beforeGroups.fragment.write q binds).binds
    ((s.groups.filterMap Projection.grouped?).map Expr.fragment)

/-- The statement with some texts for its groups, and without the clause if there are none. The sort
keys are written behind the values of the groups. -/
def writeAround (q : Quoting) (binds : List Value) (s : Select) (groups : List String) :
    Statement :=
  let before := s.beforeGroups.fragment.write q binds
  let behind := before.binds ++ s.groups.flatMap Projection.literals
  { text := " ".intercalate ([before.text] ++ listTexts "GROUP BY" groups ++
      listTexts "ORDER BY" (writeEach q behind (s.sorts.map SortKey.fragment)) ++
      countTexts "LIMIT" s.limit ++ countTexts "OFFSET" s.offset)
    binds := behind ++ s.sorts.flatMap SortKey.literals }

theorem clauses_eq_beforeGroups (s : Select) :
    s.clauses = s.beforeGroups.clauses ++
      (listClause [.group, .by] ((s.groups.filterMap Projection.grouped?).map Expr.fragment) ++
      listClause [.order, .by] (s.sorts.map SortKey.fragment) ++
      countClause .limit s.limit ++ countClause .offset s.offset) := by
  simp [clauses, beforeGroups, listClause, countClause, Projection.groupFragments_eq_map]

/-- A statement has the texts of its groups between the clauses before and the sort keys. -/
theorem write_eq_writeAround (s : Select) (q : Quoting) (binds : List Value) :
    s.fragment.write q binds = s.writeAround q binds (s.groupTexts q binds) := by
  have hbefore : binds ++ s.beforeGroups.clauses.flatMap Fragment.literals =
      (s.beforeGroups.fragment.write q binds).binds :=
    congrArg (binds ++ ·) (literals_spaced s.beforeGroups.clauses).symm
  have hliterals : ((s.groups.filterMap Projection.grouped?).map Expr.fragment).flatMap
      Fragment.literals = s.groups.flatMap Projection.literals := by
    rw [← Projection.groupFragments_eq_map, Projection.literals_groupFragments]
  have hsome : writeEach q binds s.beforeGroups.clauses ≠ [] := List.cons_ne_nil _ _
  have htext : (s.fragment.write q binds).text =
      (s.writeAround q binds (s.groupTexts q binds)).text := by
    rw [fragment, text_spaced, clauses_eq_beforeGroups, writeEach_append,
      intercalate_append_eq hsome, ← text_spaced, ← fragment, hbefore]
    -- behind the clauses before, each clause starts from the values of those in front of it
    simp only [writeEach_append, writeEach_listClause, writeEach_countClause, literals_listClause,
      hliterals]
    rfl
  have hbinds : (s.fragment.write q binds).binds =
      (s.writeAround q binds (s.groupTexts q binds)).binds := by
    show binds ++ s.fragment.literals = binds ++ s.beforeGroups.fragment.literals ++ _ ++ _
    rw [literals_fragment, literals_fragment]
    simp [literals, beforeGroups]
  exact congrArg₂ Statement.mk htext hbinds

/-! ## Deleting the wildcards -/

/-- The statement with no wildcards among its groups. -/
def withoutWildcards (s : Select) : Select :=
  { s with groups := s.groups.filter fun p => !p.isWildcard }

/-- Without its wildcards a statement lacks the stars among the texts of its groups and nothing
else. -/
theorem write_withoutWildcards {q : Quoting} (hq : q ≠ .never) (s : Select) (binds : List Value) :
    s.withoutWildcards.fragment.write q binds =
      s.writeAround q binds ((s.groupTexts q binds).filter (· ≠ "*")) := by
  have htexts : s.withoutWildcards.groupTexts q binds =
      (s.groupTexts q binds).filter (· ≠ "*") := by
    rw [groupTexts, withoutWildcards, Projection.grouped?_filter_isWildcard,
      writeEach_filter_isStar hq]
    rfl
  rw [write_eq_writeAround, htexts, writeAround, withoutWildcards,
    Projection.literals_filter_isWildcard]
  rfl

end Select

/-! ## Stars are seen in the text -/

/-- The stars in a text. -/
def stars (text : String) : Nat := text.toList.count '*'

/-- The stars in some texts. -/
def starsOf (texts : List String) : Nat := (texts.map stars).sum

theorem starsOf_append (texts texts' : List String) :
    starsOf (texts ++ texts') = starsOf texts + starsOf texts' := by
  rw [starsOf, List.map_append, List.sum_append]
  rfl

theorem stars_intercalate {separator : String} (h : stars separator = 0) (texts : List String) :
    stars (separator.intercalate texts) = starsOf texts := by
  induction texts with
  | nil => rfl
  | cons text texts ih =>
    cases texts with
    | nil => rfl
    | cons text' texts =>
      rw [String.intercalate_cons_cons, stars, String.toList_append, String.toList_append,
        List.count_append, List.count_append]
      show stars text + stars separator + stars _ = stars text + starsOf (text' :: texts)
      rw [h, ih, Nat.add_zero]

/-- Each text that is only a star counts for one. -/
theorem starsOf_eq_filter_add_count (texts : List String) :
    starsOf texts = starsOf (texts.filter (· ≠ "*")) + texts.count "*" := by
  induction texts with
  | nil => rfl
  | cons text texts ih =>
    by_cases h : text = "*"
    · subst h
      rw [List.filter_cons_of_neg (by decide), List.count_cons_self, ← Nat.add_assoc, ← ih,
        Nat.add_comm]
      rfl
    · rw [List.filter_cons_of_pos (by simpa using h), List.count_cons_of_ne h]
      show stars text + starsOf texts = stars text + starsOf _ + _
      rw [ih, Nat.add_assoc]

namespace Select

theorem starsOf_listTexts {words : String} (h : stars words = 0) (texts : List String) :
    starsOf (listTexts words texts) = starsOf texts := by
  cases texts with
  | nil => rfl
  | cons text texts =>
    show stars words + (stars (", ".intercalate _) + 0) = _
    rw [h, stars_intercalate (by decide), Nat.zero_add, Nat.add_zero]

/-- A statement has the stars of its groups besides all others. -/
theorem stars_writeAround (s : Select) (q : Quoting) (binds : List Value) (texts : List String) :
    stars (s.writeAround q binds texts).text =
      starsOf texts + stars (s.writeAround q binds []).text := by
  rw [writeAround, writeAround]
  dsimp only
  simp only [stars_intercalate (show stars " " = 0 by decide), starsOf_append,
    starsOf_listTexts (show stars "GROUP BY" = 0 by decide)]
  show _ = starsOf texts + (_ + 0 + _ + _ + _)
  omega

theorem writeAround_filter_eq_iff (s : Select) (q : Quoting) (binds : List Value)
    (texts : List String) :
    s.writeAround q binds (texts.filter (· ≠ "*")) = s.writeAround q binds texts ↔
      "*" ∉ texts := by
  constructor
  · intro h
    -- the stars outside the groups are the same, so those that are left out must be none
    have hstars := s.stars_writeAround q binds (texts.filter (· ≠ "*"))
    rw [h, stars_writeAround, starsOf_eq_filter_add_count] at hstars
    exact List.count_eq_zero.mp (by omega)
  · intro h
    have hall : ∀ text ∈ texts, decide (text ≠ "*") = true := by
      intro text htext
      rw [decide_eq_true_eq]
      rintro rfl
      exact h htext
    rw [List.filter_eq_self.mpr hall]

/-! ## The clause of the groups -/

/-- A star is written for the expressions that are only a star, whatever their aliases. -/
theorem star_mem_groupTexts_iff {q : Quoting} (hq : q ≠ .never) (s : Select) (binds : List Value) :
    "*" ∈ s.groupTexts q binds ↔ ∃ label, .expr .star label ∈ s.groups := by
  rw [groupTexts, star_mem_writeEach_iff hq, List.mem_filterMap]
  constructor
  · rintro ⟨p, hp, hstar⟩
    cases p with
    | all => cases hstar
    | allOf table => cases hstar
    | expr e label =>
      cases hstar
      exact ⟨label, hp⟩
  · rintro ⟨label, hp⟩
    exact ⟨_, hp, rfl⟩

/-- There are no texts exactly if all groups are wildcards that are given as such. -/
theorem groupTexts_eq_nil_iff (s : Select) (q : Quoting) (binds : List Value) :
    s.groupTexts q binds = [] ↔ ∀ p ∈ s.groups, p = .all ∨ ∃ table, p = .allOf table := by
  rw [groupTexts, List.eq_nil_iff_length_eq_zero, length_writeEach, List.length_map,
    ← List.eq_nil_iff_length_eq_zero, List.filterMap_eq_nil_iff]
  refine forall₂_congr fun p _ => ?_
  cases p <;> simp [Projection.grouped?]

/-- Groups are written between the conditions and the sort keys, as expressions without their
aliases, whose placeholders follow those before and are followed by those of the sort keys; the
clause is left out exactly if all groups are wildcards given as such. Deleting all wildcards, which
are what the projection list writes as a wildcard, leaves the values as they are and takes from the
groups the texts that are only a star. So the statement stays the same exactly if no wildcard is
given as an expression. -/
theorem write_groups {q : Quoting} (hq : q ≠ .never) (s : Select) (binds : List Value) :
    let texts := s.groupTexts q binds
    let pruned := s.withoutWildcards
    (∀ (p : Projection) (binds' : List Value),
      p.isWildcard = true ↔ IsWildcard (p.unlabelled.fragment.write q binds').text) ∧
    s.fragment.write q binds = s.writeAround q binds texts ∧
    (texts = [] ↔ ∀ p ∈ s.groups, p = .all ∨ ∃ table, p = .allOf table) ∧
    pruned.fragment.write q binds = s.writeAround q binds (texts.filter (· ≠ "*")) ∧
    (pruned.fragment.write q binds).binds = (s.fragment.write q binds).binds ∧
    (pruned.fragment.write q binds = s.fragment.write q binds ↔
      ∀ label, .expr .star label ∉ s.groups) := by
  intro texts pruned
  have hwrite : s.fragment.write q binds = s.writeAround q binds texts :=
    s.write_eq_writeAround q binds
  have hpruned : pruned.fragment.write q binds =
      s.writeAround q binds (texts.filter (· ≠ "*")) := s.write_withoutWildcards hq binds
  refine ⟨fun p binds' => p.isWildcard_iff hq binds', hwrite, s.groupTexts_eq_nil_iff q binds,
    hpruned, ?_, ?_⟩
  · rw [hpruned, hwrite]
    rfl
  · rw [hpruned, hwrite, writeAround_filter_eq_iff, star_mem_groupTexts_iff hq, not_exists]

/-- Wildcards of both forms around an expression with an alias, between a condition and a sort key
that bind values. -/
theorem write_groups_mixed :
    let highest : Projection := .expr (.call "max" [.literal (.int 1)]) (some "m")
    let s : Select :=
      { projections := [highest]
        condition := some (.compareValue ⟨none, "a"⟩ .less (.int 2))
        groups := [.all, highest, .allOf "t"]
        sorts := [.descending (.literal (.int 3))] }
    Quoting.whenNeeded ≠ .never ∧ (∀ label, .expr .star label ∉ s.groups) ∧
      s.withoutWildcards.fragment.write .whenNeeded [.null] =
        s.fragment.write .whenNeeded [.null] ∧
      (s.fragment.write .whenNeeded [.null]).text =
        "SELECT max($2) AS m WHERE a < $3 GROUP BY max($4) ORDER BY $5 DESC" := by
  intro highest s
  have hq : Quoting.whenNeeded ≠ .never := by decide
  have hnone : ∀ label, .expr .star label ∉ s.groups := by
    intro label hmem
    simp [s, highest] at hmem
  obtain ⟨-, -, -, -, -, hsame⟩ := write_groups hq s [.null]
  exact ⟨hq, hnone, hsame.mpr hnone, by decide +kernel⟩

/-- A star given as an expression is written for the projections as it is for the groups, where the
wildcard of all columns is left out. -/
theorem write_star_group :
    let star : Projection := .expr .star none
    let s : Select := { tables := [.bare "t"], groups := [star] }
    (star.unlabelled.fragment.write .whenNeeded []).text = "*" ∧
      (s.statement .whenNeeded).text = "SELECT * FROM t GROUP BY *" ∧
      (s.withoutWildcards.statement .whenNeeded).text = "SELECT * FROM t" ∧
      s.withoutWildcards.statement .whenNeeded ≠ s.statement .whenNeeded := by
  intro star s
  have htext : (s.statement .whenNeeded).text = "SELECT * FROM t GROUP BY *" := by decide +kernel
  have hpruned : (s.withoutWildcards.statement .whenNeeded).text = "SELECT * FROM t" := by
    decide +kernel
  refine ⟨by decide +kernel, htext, hpruned, fun h => ?_⟩
  rw [h, htext] at hpruned
  exact absurd hpruned (by decide)

end Select

end SqlSelect
