import SqlSelect.Proofs.Binding.Pass

/-!
# Passes agree with fragments

Every pass returns the text of a fragment and binds that fragment's literals. One lemma for each
kind of part; `Select.writes_pass` puts them together clause by clause.
-/

namespace SqlSelect

open Pass

/-! ## The text of composed fragments -/

namespace Fragment

theorem text_nil (q : Quoting) (binds : List Value) : (write [] q binds).text = "" := rfl

theorem text_cons (p : Piece) (f : Fragment) (q : Quoting) (binds : List Value) :
    (write (p :: f) q binds).text =
      String.ofList (p.chars q binds.length) ++ (f.write q (binds ++ p.literal?.toList)).text := by
  rw [← List.singleton_append, write_append]
  cases p <;> simp [write, chars]

theorem text_append (f g : Fragment) (q : Quoting) (binds : List Value) :
    (write (f ++ g) q binds).text =
      (f.write q binds).text ++ (g.write q (binds ++ f.literals)).text := by
  rw [write_append]
  rfl

/-- The texts of fragments that are written one after another. -/
def writeEach (q : Quoting) (binds : List Value) : List Fragment → List String
  | [] => []
  | f :: fs => (f.write q binds).text :: writeEach q (binds ++ f.literals) fs

theorem length_writeEach (q : Quoting) (binds : List Value) (fs : List Fragment) :
    (writeEach q binds fs).length = fs.length := by
  induction fs generalizing binds with
  | nil => rfl
  | cons f fs ih => rw [writeEach, List.length_cons, ih, List.length_cons]

theorem writeEach_append (q : Quoting) (binds : List Value) (fs gs : List Fragment) :
    writeEach q binds (fs ++ gs) =
      writeEach q binds fs ++ writeEach q (binds ++ fs.flatMap literals) gs := by
  induction fs generalizing binds with
  | nil => simp [writeEach]
  | cons f fs ih =>
    simp only [List.cons_append, writeEach, ih, List.flatMap_cons, List.append_assoc]

/-- The text of joined fragments is that of the fragments one by one, with the text of the separator
between them. -/
theorem text_joined {separator : Fragment} {s : String} (q : Quoting)
    (hnone : separator.literals = []) (htext : ∀ binds, (separator.write q binds).text = s)
    (binds : List Value) (fs : List Fragment) :
    ((joined separator fs).write q binds).text = s.intercalate (writeEach q binds fs) := by
  induction fs generalizing binds with
  | nil => rfl
  | cons f fs ih =>
    cases fs with
    | nil => rw [joined, writeEach, writeEach, String.intercalate_singleton]
    | cons g fs =>
      rw [joined_cons_cons, text_append, text_append, htext, literals_append, hnone,
        List.append_nil, ih]
      simp only [writeEach, String.intercalate_cons_cons]

theorem text_spaced (q : Quoting) (binds : List Value) (fs : List Fragment) :
    ((spaced fs).write q binds).text = " ".intercalate (writeEach q binds fs) :=
  text_joined q rfl (fun _ => rfl) binds fs

theorem text_commaSeparated (q : Quoting) (binds : List Value) (fs : List Fragment) :
    ((commaSeparated fs).write q binds).text = ", ".intercalate (writeEach q binds fs) :=
  text_joined q rfl (fun _ => rfl) binds fs

theorem text_parenthesised (q : Quoting) (binds : List Value) (f : Fragment) :
    ((parenthesised f).write q binds).text = parenthesise (f.write q binds).text := by
  simp [parenthesised, parenthesise, text_cons, text_append, text_nil, Piece.chars,
    Symbol.spelling, String.append_assoc]

@[simp] theorem text_keyword (k : Keyword) (q : Quoting) (binds : List Value) :
    (write [.keyword k] q binds).text = k.spelling := by
  simp [text_cons, text_nil, Piece.chars]

@[simp] theorem text_symbol (s : Symbol) (q : Quoting) (binds : List Value) :
    (write [.symbol s] q binds).text = s.spelling := by
  simp [text_cons, text_nil, Piece.chars]

end Fragment

open Fragment

theorem text_keywords (ks : List Keyword) (q : Quoting) (binds : List Value) :
    ((keywords ks).write q binds).text = " ".intercalate (ks.map Keyword.spelling) := by
  have heach : ∀ binds, writeEach q binds (ks.map Keyword.fragment) = ks.map Keyword.spelling := by
    induction ks with
    | nil => intro binds; rfl
    | cons k ks ih =>
      intro binds
      simp only [List.map_cons, writeEach, Keyword.fragment, text_keyword, ih]
  rw [keywords, text_spaced, heach]

theorem text_qualifiedName (qualifier : Option String) (name : String) (q : Quoting)
    (binds : List Value) :
    ((qualifiedName qualifier name).write q binds).text = qualify q qualifier name := by
  cases qualifier <;>
    simp [qualifiedName, qualify, text_cons, text_nil, Piece.chars, Symbol.spelling, Quoting.quote,
      String.append_assoc]

theorem text_aliased (f : Fragment) (label : Option String) (q : Quoting) (binds : List Value) :
    ((aliased f label).write q binds).text = withAlias q (f.write q binds).text label := by
  cases label with
  | none => rfl
  | some label =>
    have hspaced : aliased f (some label) = spaced [f, [.keyword .as], [.name label]] := by
      simp [aliased, spaced, joined]
    rw [hspaced, text_spaced]
    simp [writeEach, withAlias, text_cons, text_nil, Piece.chars, Keyword.spelling, Quoting.quote]

/-! ## Agreement of one pass and of many -/

/-- The pass returns the text of the fragment and binds its literals, whatever was bound before. -/
def Writes (q : Quoting) (w : Pass String) (f : Fragment) : Prop :=
  ∀ binds, w.run binds = ((f.write q binds).text, binds ++ f.literals)

/-- The pass returns the texts of the fragments one after another and binds all their literals. -/
def WritesEach (q : Quoting) (w : Pass (List String)) (fs : List Fragment) : Prop :=
  ∀ binds, w.run binds = (writeEach q binds fs, binds ++ fs.flatMap Fragment.literals)

theorem writes_bindValue (q : Quoting) (v : Value) : Writes q (bindValue v) [.literal v] := by
  intro binds
  show (String.ofList (placeholder (binds ++ [v]).length), binds ++ [v]) = _
  rw [List.length_append]
  simp [text_cons, text_nil, Piece.chars]

/-- A pass that only returns a text writes every fragment without literals that has this text. -/
theorem writes_pure {q : Quoting} {text : String} {f : Fragment} (hnone : f.literals = [])
    (htext : ∀ binds, (f.write q binds).text = text) : Writes q (return text) f := by
  intro binds
  rw [run_pure, htext, hnone, List.append_nil]

theorem writesEach_nil (q : Quoting) : WritesEach q (return []) [] := by
  intro binds
  rw [run_pure, writeEach, List.flatMap_nil, List.append_nil]

theorem writesEach_cons {q : Quoting} {w : Pass String} {ws : Pass (List String)} {f : Fragment}
    {fs : List Fragment} (h : Writes q w f) (hs : WritesEach q ws fs) :
    WritesEach q (do let text ← w; let texts ← ws; return text :: texts) (f :: fs) := by
  intro binds
  simp only [run_bind, run_pure, h binds, hs _, writeEach, List.flatMap_cons, List.append_assoc]

/-- If each pass writes its fragment, the passes in order write the fragments in order. -/
theorem writesEach_mapM {α : Type} {q : Quoting} {pass : α → Pass String} {fragment : α → Fragment}
    {xs : List α} (h : ∀ x ∈ xs, Writes q (pass x) (fragment x)) :
    WritesEach q (xs.mapM pass) (xs.map fragment) := by
  induction xs with
  | nil => exact writesEach_nil q
  | cons x xs ih =>
    rw [List.mapM_cons, List.map_cons]
    exact writesEach_cons (h x List.mem_cons_self)
      (ih fun y hy => h y (List.mem_cons_of_mem x hy))

/-! ## Every part agrees -/

theorem Column.writes_pass (q : Quoting) (c : Column) : Writes q (c.pass q) c.fragment :=
  writes_pure c.literals_fragment (text_qualifiedName c.table c.name q)

theorem TableRef.writes_pass (q : Quoting) (t : TableRef) : Writes q (t.pass q) t.fragment := by
  refine writes_pure t.literals_fragment fun binds => ?_
  rw [TableRef.fragment, text_aliased, text_qualifiedName]

theorem Expr.writes_pass (q : Quoting) (e : Expr) : Writes q (e.pass q) e.fragment := by
  induction e with
  | column c => exact c.writes_pass q
  | literal v => exact writes_bindValue q v
  | call function args ih =>
    intro binds
    have hargs := writesEach_mapM ih binds
    simp only [Expr.pass, passes_eq_mapM, run_bind, run_pure, hargs, Expr.fragment,
      fragments_eq_map, text_cons, text_parenthesised, text_commaSeparated, Piece.chars,
      String.ofList_toList]
    simp
  | binary left op right ihl ihr =>
    intro binds
    simp only [Expr.pass, run_bind, run_pure, ihl binds, ihr _, Expr.fragment, text_parenthesised,
      text_spaced, writeEach, text_symbol]
    simp
  | null => exact writes_pure rfl fun binds => by simp [Expr.fragment, Keyword.spelling]
  | star => exact writes_pure rfl fun binds => by simp [Expr.fragment, Symbol.spelling]

namespace Condition

/-- A member is put in parentheses by the pass where the fragment has them. -/
theorem text_memberFragment (c : Condition) (q : Quoting) (binds : List Value) :
    ((memberFragment c).write q binds).text =
      if c.isGroup then parenthesise (c.fragment.write q binds).text
      else (c.fragment.write q binds).text := by
  unfold memberFragment
  split
  · rw [text_parenthesised]
  · rfl

theorem writesEach_memberPasses {q : Quoting} {members : List Condition}
    (ih : ∀ c ∈ members, Writes q (c.pass q) c.fragment) :
    WritesEach q (memberPasses q members) (memberFragments members) := by
  rw [memberFragments_eq_map]
  induction members with
  | nil => exact writesEach_nil q
  | cons c cs ihcs =>
    have hcs := ihcs fun d hd => ih d (List.mem_cons_of_mem c hd)
    intro binds
    simp only [memberPasses, run_bind, run_pure, ih c List.mem_cons_self binds, hcs _,
      List.map_cons, writeEach, text_memberFragment, literals_memberFragment, List.flatMap_cons,
      List.append_assoc]

/-- The text of a group is put together from the texts of its members. -/
theorem writes_group {q : Quoting} {word : Keyword} {separator empty : String}
    (hseparator : separator = " " ++ word.spelling ++ " ") {c : Condition} {cs : List Condition}
    (ih : ∀ d ∈ c :: cs, Writes q (d.pass q) d.fragment) :
    Writes q (do let texts ← memberPasses q (c :: cs); return groupText separator empty texts)
      (joined [.space, .keyword word, .space] (memberFragments (c :: cs))) := by
  intro binds
  have htext : ∀ binds, (Fragment.write [.space, .keyword word, .space] q binds).text =
      separator := by
    intro binds
    simp [text_cons, text_nil, Piece.chars, hseparator, String.append_assoc]
  have hliterals : Fragment.literals [.space, .keyword word, .space] = [] := rfl
  simp only [run_bind, run_pure, writesEach_memberPasses ih binds, text_joined q rfl htext,
    literals_joined hliterals]
  simp only [memberFragments, writeEach, groupText]

theorem separator_and : " AND " = " " ++ Keyword.and.spelling ++ " " := by decide

theorem separator_or : " OR " = " " ++ Keyword.or.spelling ++ " " := by decide

theorem writes_pass (q : Quoting) (c : Condition) : Writes q (c.pass q) c.fragment := by
  induction c with
  | all members ih =>
    cases members with
    | nil => exact writes_pure rfl fun binds => text_keyword .true q binds
    | cons c cs => exact writes_group separator_and ih
  | any members ih =>
    cases members with
    | nil => exact writes_pure rfl fun binds => text_keyword .false q binds
    | cons c cs => exact writes_group separator_or ih
  | not c ih =>
    intro binds
    have hspaced : (Condition.not c).fragment =
        spaced [[.keyword .not], parenthesised c.fragment] := rfl
    simp only [Condition.pass, run_bind, run_pure, ih binds, hspaced, text_spaced, writeEach,
      text_keyword, text_parenthesised, Keyword.spelling]
    simp
  | compare left op right =>
    intro binds
    simp only [Condition.pass, run_bind, run_pure, left.writes_pass q binds, right.writes_pass q _,
      Condition.fragment, text_spaced, writeEach, text_symbol]
    simp
  | isNull e negated =>
    intro binds
    simp only [Condition.pass, run_bind, run_pure, e.writes_pass q binds, Condition.fragment,
      text_spaced, writeEach, text_keywords]
    cases negated <;> simp [negation, Keyword.spelling]
  | inList e list negated =>
    cases list with
    | nil =>
      -- neither the operand nor the list is run, so nothing is bound
      refine writes_pure rfl fun binds => ?_
      cases negated <;> simp [Condition.fragment, Keyword.spelling]
    | cons x xs =>
      intro binds
      have hlist := writesEach_mapM (fun y (_ : y ∈ x :: xs) => Expr.writes_pass q y)
      simp only [Condition.pass, run_bind, run_pure, e.writes_pass q binds, hlist _,
        Condition.fragment, text_spaced, writeEach, text_keywords, text_parenthesised,
        text_commaSeparated]
      cases negated <;> simp [negation, Keyword.spelling]
  | like e pattern negated ignoreCase =>
    intro binds
    simp only [Condition.pass, run_bind, run_pure, e.writes_pass q binds, pattern.writes_pass q _,
      Condition.fragment, text_spaced, writeEach, text_keywords]
    cases negated <;> cases ignoreCase <;> simp [negation, likeWords, Keyword.spelling]

end Condition

theorem Projection.writes_pass (q : Quoting) (p : Projection) :
    Writes q (p.pass q) p.fragment := by
  cases p with
  | all => exact writes_pure rfl fun binds => text_symbol .star q binds
  | allOf table =>
    refine writes_pure rfl fun binds => ?_
    simp [Projection.fragment, text_cons, text_nil, Piece.chars, Symbol.spelling, Quoting.quote,
      String.append_assoc]
  | expr e label =>
    intro binds
    simp only [Projection.pass, run_bind, run_pure, e.writes_pass q binds, Projection.fragment,
      text_aliased, literals_aliased]

theorem SortKey.writes_pass (q : Quoting) (k : SortKey) : Writes q (k.pass q) k.fragment := by
  intro binds
  obtain ⟨e, direction, nulls⟩ := k
  -- the words behind the expression bind nothing, so only their texts are left to compare
  simp only [SortKey.pass, run_bind, run_pure, e.writes_pass q binds, SortKey.fragment, text_spaced,
    writeEach_append, literals_spaced, List.flatMap_append]
  rcases direction with _ | _ | _ <;> rcases nulls with _ | _ | _ <;>
    simp [writeEach, text_keywords, Direction.keyword, NullsPlace.keyword, Keyword.spelling]

theorem Join.writes_pass (q : Quoting) (j : Join) : Writes q (j.pass q) j.fragment := by
  intro binds
  simp only [Join.pass, run_bind, run_pure, j.table.writes_pass q binds, Join.fragment, text_spaced,
    writeEach, text_keywords, text_keyword, JoinKind.describe, literals_keywords, List.append_nil,
    TableRef.literals_fragment, j.condition.writes_pass q _, literals_cons, literals_nil,
    Piece.literal?, Option.toList, Keyword.spelling, literals_spaced, List.flatMap_cons,
    List.flatMap_nil, List.nil_append]

/-! ## A statement, clause by clause -/

namespace Select

theorem writesEach_distinctPass (q : Quoting) (distinct : Option (List Column)) :
    WritesEach q (distinctPass q distinct) (distinctClause distinct) := by
  intro binds
  rcases distinct with _ | _ | ⟨c, cs⟩
  · exact writesEach_nil q binds
  · simp only [distinctPass, run_pure, distinctClause, writeEach, text_keyword]
    simp [Keyword.spelling]
  · have hcolumns := writesEach_mapM (fun d (_ : d ∈ c :: cs) => Column.writes_pass q d) binds
    simp only [distinctPass, run_bind, run_pure, hcolumns, distinctClause, writeEach, text_cons,
      text_parenthesised, text_commaSeparated, Piece.chars, String.ofList_toList]
    simp [Keyword.spelling, List.flatMap_map]

theorem writesEach_projectionPass (q : Quoting) (projections : List Projection) :
    WritesEach q (projectionPass q projections) (projectionClause projections) := by
  intro binds
  cases projections with
  | nil =>
    simp only [projectionPass, run_pure, projectionClause, writeEach, text_symbol]
    simp [Symbol.spelling]
  | cons p ps =>
    have hprojections :=
      writesEach_mapM (fun r (_ : r ∈ p :: ps) => Projection.writes_pass q r) binds
    simp only [projectionPass, run_bind, run_pure, hprojections, projectionClause, writeEach,
      text_commaSeparated]
    simp [List.flatMap_map]

theorem writesEach_conditionPass (q : Quoting) (condition : Option Condition) :
    WritesEach q (conditionPass q condition) (conditionClause condition) := by
  intro binds
  cases condition with
  | none => exact writesEach_nil q binds
  | some c =>
    simp only [conditionPass, run_bind, run_pure, conditionClause, writeEach, text_keyword,
      c.writes_pass q binds]
    simp [Keyword.spelling]

/-- The entries of a list clause are written behind its words, or nothing is. -/
theorem writeEach_listClause (q : Quoting) (binds : List Value) (words : List Keyword)
    (entries : List Fragment) :
    writeEach q binds (listClause words entries) =
      listTexts (" ".intercalate (words.map Keyword.spelling)) (writeEach q binds entries) := by
  cases entries with
  | nil => rfl
  | cons f fs =>
    simp only [listClause, writeEach, text_keywords, literals_keywords, List.append_nil,
      text_commaSeparated, listTexts]

theorem writeEach_countClause (q : Quoting) (binds : List Value) (word : Keyword)
    (n : Option UInt64) :
    writeEach q binds (countClause word n) = countTexts word.spelling n := by
  cases n with
  | none => rfl
  | some n => simp [countClause, countTexts, writeEach, text_cons, text_nil, Piece.chars]

/-- Writing a statement in one pass gives its text, and binds its literals. -/
theorem writes_pass (q : Quoting) (s : Select) : Writes q (s.pass q) s.fragment := by
  intro binds
  have htables := writesEach_mapM (fun t (_ : t ∈ s.tables) => TableRef.writes_pass q t)
  have hjoins := writesEach_mapM (fun j (_ : j ∈ s.joins) => Join.writes_pass q j)
  have hgroups := writesEach_mapM
    (fun e (_ : e ∈ s.groups.filterMap Projection.grouped?) => Expr.writes_pass q e)
  have hsorts := writesEach_mapM (fun k (_ : k ∈ s.sorts) => SortKey.writes_pass q k)
  -- the pass of each clause runs behind the values of the clauses before, whichever these are
  simp only [Select.pass, run_bind, run_pure, writesEach_distinctPass q s.distinct _,
    writesEach_projectionPass q s.projections _, htables _, hjoins _,
    writesEach_conditionPass q s.condition _, hgroups _, hsorts _]
  simp only [Select.fragment, text_spaced, clauses, writeEach_append, writeEach_listClause,
    writeEach_countClause, Projection.groupFragments_eq_map]
  simp [writeEach, literals_listClause, literals_countClause, Keyword.spelling]

end Select

end SqlSelect
