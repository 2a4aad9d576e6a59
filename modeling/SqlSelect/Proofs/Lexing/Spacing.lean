import SqlSelect.Proofs.Lexing.Fragment

/-!
# Spacing of statements

Between any two words of a statement, and between any two operators, stands a space or a punctuation
mark, and what is written as it is are names of functions. So the fragments of a query are readable:
their text is cut into their tokens.
-/

namespace SqlSelect

/-! ## Readable fragments -/

/-- A fragment whose text is cut into its own tokens. -/
structure Fragment.Readable (f : Fragment) : Prop where
  loose : f.Loose
  plain : f.IsPlain

theorem Piece.isPlain_of_isSeparator {p : Piece} (h : p.isSeparator = true) : p.IsPlain := by
  cases p with
  | verbatim text => cases h
  | _ => trivial

namespace Fragment

/-- A separator runs into no neighbour. -/
theorem not_clings_separator {p : Piece} (h : p.isSeparator = true) (p' : Piece) :
    ¬ p.Clings p' ∧ ¬ p'.Clings p := by
  obtain ⟨hword, hoperator⟩ : p.isWordlike = false ∧ p.isOperator = false := by
    simpa [Piece.isSeparator] using h
  simp [Piece.Clings, hword, hoperator]

namespace Readable

theorem nil : Readable [] :=
  ⟨List.isChain_nil, fun _ hp => absurd hp List.not_mem_nil⟩

theorem singleton {p : Piece} (h : p.IsPlain) : Readable [p] :=
  ⟨List.isChain_singleton p, List.forall_mem_singleton.mpr h⟩

/-- A separator may stand between any two readable fragments. -/
theorem append_cons {f g : Fragment} {p : Piece} (hf : Readable f) (h : p.isSeparator = true)
    (hg : Readable g) : Readable (f ++ p :: g) := by
  constructor
  · have hpg : Loose (p :: g) :=
      List.IsChain.append (List.isChain_singleton p) hg.loose fun p₁ hp₁ p₂ _ => by
        cases hp₁
        exact (not_clings_separator h p₂).1
    refine List.IsChain.append hf.loose hpg fun p₁ _ p₂ hp₂ => ?_
    cases hp₂
    exact (not_clings_separator h p₁).2
  · refine List.forall_mem_append.mpr ⟨hf.plain, List.forall_mem_cons.mpr ⟨?_, hg.plain⟩⟩
    exact Piece.isPlain_of_isSeparator h

theorem cons {f : Fragment} {p : Piece} (h : p.isSeparator = true) (hf : Readable f) :
    Readable (p :: f) :=
  nil.append_cons h hf

theorem parenthesised {f : Fragment} (hf : Readable f) : Readable (parenthesised f) :=
  (hf.append_cons rfl nil).cons rfl

/-- Joined fragments are readable if the separator keeps any two of them apart. -/
theorem joined {separator : Fragment}
    (h : ∀ f g, Readable f → Readable g → Readable (f ++ separator ++ g))
    {fs : List Fragment} (hfs : ∀ f ∈ fs, Readable f) : Readable (joined separator fs) := by
  induction fs with
  | nil => exact nil
  | cons f fs ih =>
    have hf := hfs f List.mem_cons_self
    cases fs with
    | nil => exact hf
    | cons g fs => exact h f _ hf (ih fun g' hg' => hfs g' (List.mem_cons_of_mem f hg'))

theorem spaced {fs : List Fragment} (hfs : ∀ f ∈ fs, Readable f) : Readable (spaced fs) := by
  refine joined (fun f g hf hg => ?_) hfs
  rw [List.append_assoc]
  exact hf.append_cons rfl hg

/-- Three readable fragments with spaces between them. -/
theorem spaced_triple {f g h : Fragment} (hf : Readable f) (hg : Readable g) (hh : Readable h) :
    Readable (Fragment.spaced [f, g, h]) := by
  rw [Fragment.spaced_triple]
  exact hf.append_cons rfl (hg.append_cons rfl hh)

theorem commaSeparated {fs : List Fragment} (hfs : ∀ f ∈ fs, Readable f) :
    Readable (commaSeparated fs) := by
  refine joined (fun f g hf hg => ?_) hfs
  rw [List.append_assoc]
  exact hf.append_cons rfl (hg.cons rfl)

/-- A keyword between spaces keeps two fragments apart. -/
theorem joined_keyword (k : Keyword) {fs : List Fragment} (hfs : ∀ f ∈ fs, Readable f) :
    Readable (Fragment.joined [.space, .keyword k, .space] fs) := by
  refine joined (fun f g hf hg => ?_) hfs
  rw [List.append_assoc]
  exact hf.append_cons rfl ((singleton (p := .keyword k) trivial).append_cons rfl hg)

end Readable

end Fragment

open Fragment

/-! ## The functions that a query calls -/

namespace Expr

mutual

/-- The names of the functions in an expression. -/
def functions : Expr → List String
  | .column _ => []
  | .literal _ => []
  | .call function args => function :: functionsOfAll args
  | .binary left _ right => left.functions ++ right.functions
  | .null => []
  | .star => []

/-- The names of the functions in expressions. -/
def functionsOfAll : List Expr → List String
  | [] => []
  | x :: xs => x.functions ++ functionsOfAll xs

end

theorem mem_functionsOfAll {function : String} {x : Expr} {xs : List Expr} (hx : x ∈ xs)
    (h : function ∈ x.functions) : function ∈ functionsOfAll xs := by
  induction xs with
  | nil => cases hx
  | cons y ys ih =>
    rw [functionsOfAll, List.mem_append]
    rcases List.mem_cons.mp hx with rfl | hx
    · exact .inl h
    · exact .inr (ih hx)

end Expr

namespace Condition

mutual

/-- The names of the functions in a condition, written or not. -/
def functions : Condition → List String
  | .all members => functionsOfAll members
  | .any members => functionsOfAll members
  | .not c => c.functions
  | .compare left _ right => left.functions ++ right.functions
  | .isNull e _ => e.functions
  | .inList e list _ => e.functions ++ list.flatMap Expr.functions
  | .like e pattern _ _ => e.functions ++ pattern.functions

/-- The names of the functions in conditions. -/
def functionsOfAll : List Condition → List String
  | [] => []
  | c :: cs => c.functions ++ functionsOfAll cs

end

theorem mem_functionsOfAll {function : String} {c : Condition} {cs : List Condition} (hc : c ∈ cs)
    (h : function ∈ c.functions) : function ∈ functionsOfAll cs := by
  induction cs with
  | nil => cases hc
  | cons d ds ih =>
    rw [functionsOfAll, List.mem_append]
    rcases List.mem_cons.mp hc with rfl | hc
    · exact .inl h
    · exact .inr (ih hc)

end Condition

/-- The names of the functions in a projection. -/
def Projection.functions : Projection → List String
  | .all => []
  | .allOf _ => []
  | .expr e _ => e.functions

theorem Projection.functions_eq_of_grouped? {p : Projection} {e : Expr} (h : p.grouped? = some e) :
    p.functions = e.functions := by
  cases p with
  | all => cases h
  | allOf table => cases h
  | expr e' label =>
    cases h
    rfl

/-- The names of the functions in a statement. -/
def Select.functions (s : Select) : List String :=
  s.projections.flatMap Projection.functions ++
  s.joins.flatMap (fun j => j.condition.functions) ++
  s.condition.elim [] Condition.functions ++
  s.groups.flatMap Projection.functions ++
  s.sorts.flatMap (fun k => k.expression.functions)

/-- Whether a list of functions holds plain names only. -/
def AllPlain (functions : List String) : Prop :=
  ∀ function ∈ functions, isPlainName function.toList = true

theorem AllPlain.append_left {fs gs : List String} (h : AllPlain (fs ++ gs)) : AllPlain fs :=
  fun f hf => h f (List.mem_append_left gs hf)

theorem AllPlain.append_right {fs gs : List String} (h : AllPlain (fs ++ gs)) : AllPlain gs :=
  fun f hf => h f (List.mem_append_right fs hf)

theorem AllPlain.of_flatMap {α : Type} {xs : List α} {functions : α → List String}
    (h : AllPlain (xs.flatMap functions)) : ∀ x ∈ xs, AllPlain (functions x) :=
  fun x hx f hf => h f (List.mem_flatMap.mpr ⟨x, hx, hf⟩)

/-! ## The fragments of a query are readable -/

theorem readable_keywords (ks : List Keyword) : (keywords ks).Readable := by
  refine Readable.spaced fun f hf => ?_
  obtain ⟨k, -, rfl⟩ := List.mem_map.mp hf
  exact .singleton trivial

theorem readable_qualifiedName (qualifier : Option String) (name : String) :
    (qualifiedName qualifier name).Readable := by
  have hname : ∀ word, Fragment.Readable [.name word] := fun _ => .singleton trivial
  cases qualifier with
  | none => exact hname name
  | some qualifier => exact (hname qualifier).append_cons rfl (hname name)

theorem readable_aliased {f : Fragment} (hf : f.Readable) (label : Option String) :
    (aliased f label).Readable := by
  cases label with
  | none => exact hf
  | some label =>
    have has : Fragment.Readable [.keyword .as] := .singleton trivial
    exact hf.append_cons rfl (has.append_cons rfl (.singleton trivial))

theorem Column.readable_fragment (c : Column) : c.fragment.Readable :=
  readable_qualifiedName c.table c.name

theorem TableRef.readable_fragment (t : TableRef) : t.fragment.Readable :=
  readable_aliased (readable_qualifiedName t.schema t.name) t.label

theorem Expr.readable_fragment {e : Expr} (h : AllPlain e.functions) : e.fragment.Readable := by
  induction e with
  | column c => exact c.readable_fragment
  | literal v => exact .singleton trivial
  | call function args ih =>
    have hname : Fragment.Readable [.verbatim function] :=
      .singleton (h function List.mem_cons_self)
    have hargs : (commaSeparated (fragments args)).Readable := by
      rw [fragments_eq_map]
      refine Readable.commaSeparated fun f hf => ?_
      obtain ⟨x, hx, rfl⟩ := List.mem_map.mp hf
      exact ih x hx fun g hg => h g (List.mem_cons_of_mem function (mem_functionsOfAll hx hg))
    exact hname.append_cons rfl (hargs.append_cons rfl .nil)
  | binary left op right ihl ihr =>
    have hop : Fragment.Readable [.symbol op.symbol] := .singleton trivial
    exact ((ihl h.append_left).spaced_triple hop (ihr h.append_right)).parenthesised
  | null => exact .singleton trivial
  | star => exact .singleton trivial

namespace Condition

/-- The members of a group are readable, with their parentheses. -/
theorem readable_memberFragments {members : List Condition}
    (ih : ∀ c ∈ members, AllPlain c.functions → c.fragment.Readable)
    (h : AllPlain (functionsOfAll members)) : ∀ f ∈ memberFragments members, f.Readable := by
  intro f hf
  rw [memberFragments_eq_map] at hf
  obtain ⟨c, hc, rfl⟩ := List.mem_map.mp hf
  have hcf := ih c hc fun g hg => h g (mem_functionsOfAll hc hg)
  rw [memberFragment]
  split
  · exact hcf.parenthesised
  · exact hcf

theorem readable_fragment {c : Condition} (h : AllPlain c.functions) : c.fragment.Readable := by
  induction c with
  | all members ih =>
    cases members with
    | nil => exact .singleton trivial
    | cons c cs => exact .joined_keyword .and (readable_memberFragments ih h)
  | any members ih =>
    cases members with
    | nil => exact .singleton trivial
    | cons c cs => exact .joined_keyword .or (readable_memberFragments ih h)
  | not c ih =>
    have hnot : Fragment.Readable [.keyword .not] := .singleton trivial
    exact hnot.append_cons rfl (ih h).parenthesised
  | compare left op right =>
    exact .spaced_triple (Expr.readable_fragment h.append_left) (.singleton trivial)
      (Expr.readable_fragment h.append_right)
  | isNull e negated =>
    rw [fragment, spaced_pair]
    exact (Expr.readable_fragment h).append_cons rfl (readable_keywords _)
  | inList e list negated =>
    cases list with
    | nil => exact .singleton trivial
    | cons x xs =>
      have hlist : (commaSeparated ((x :: xs).map Expr.fragment)).Readable := by
        refine Readable.commaSeparated fun f hf => ?_
        obtain ⟨y, hy, rfl⟩ := List.mem_map.mp hf
        exact Expr.readable_fragment (h.append_right.of_flatMap y hy)
      exact .spaced_triple (Expr.readable_fragment h.append_left) (readable_keywords _)
        hlist.parenthesised
  | like e pattern negated ignoreCase =>
    exact .spaced_triple (Expr.readable_fragment h.append_left) (readable_keywords _)
      (Expr.readable_fragment h.append_right)

end Condition

theorem Projection.readable_fragment {p : Projection} (h : AllPlain p.functions) :
    p.fragment.Readable := by
  cases p with
  | all => exact .singleton trivial
  | allOf table =>
    have htable : Fragment.Readable [.name table] := .singleton trivial
    exact htable.append_cons rfl (.singleton trivial)
  | expr e label => exact readable_aliased (Expr.readable_fragment h) label

theorem SortKey.readable_fragment {k : SortKey} (h : AllPlain k.expression.functions) :
    k.fragment.Readable := by
  refine Readable.spaced fun f hf => ?_
  simp only [List.mem_append, List.mem_singleton, Option.mem_toList, Option.map_eq_some_iff] at hf
  rcases hf with (rfl | ⟨d, -, rfl⟩) | ⟨place, -, rfl⟩
  · exact Expr.readable_fragment h
  · exact .singleton trivial
  · exact readable_keywords _

theorem Join.readable_fragment {j : Join} (h : AllPlain j.condition.functions) :
    j.fragment.Readable := by
  refine Readable.spaced ?_
  simp only [List.forall_mem_cons, List.not_mem_nil, false_implies, implies_true, and_true]
  exact ⟨readable_keywords _, j.table.readable_fragment, .singleton trivial,
    Condition.readable_fragment h⟩

namespace Select

/-- The entries of a list clause are readable behind its words. -/
theorem readable_listClause (words : List Keyword) {entries : List Fragment}
    (h : ∀ f ∈ entries, f.Readable) : ∀ f ∈ listClause words entries, f.Readable := by
  intro f hf
  cases entries with
  | nil => cases hf
  | cons e es =>
    rcases List.mem_pair.mp hf with rfl | rfl
    · exact readable_keywords words
    · exact .commaSeparated h

theorem readable_countClause (word : Keyword) (n : Option UInt64) :
    ∀ f ∈ countClause word n, f.Readable := by
  intro f hf
  cases n with
  | none => cases hf
  | some n => rcases List.mem_pair.mp hf with rfl | rfl <;> exact .singleton trivial

theorem readable_distinctClause (distinct : Option (List Column)) :
    ∀ f ∈ distinctClause distinct, f.Readable := by
  intro f hf
  rcases distinct with _ | _ | ⟨c, cs⟩
  · cases hf
  · cases List.mem_singleton.mp hf
    exact .singleton trivial
  · cases List.mem_singleton.mp hf
    have hword : Fragment.Readable [.keyword .distinct] := .singleton trivial
    refine hword.append_cons rfl (Readable.append_cons (.commaSeparated fun f hf => ?_) rfl .nil)
    obtain ⟨d, -, rfl⟩ := List.mem_map.mp hf
    exact d.readable_fragment

theorem readable_projectionClause {projections : List Projection}
    (h : ∀ p ∈ projections, AllPlain p.functions) :
    ∀ f ∈ projectionClause projections, f.Readable := by
  intro f hf
  cases projections with
  | nil =>
    cases List.mem_singleton.mp hf
    exact .singleton trivial
  | cons p ps =>
    cases List.mem_singleton.mp hf
    refine .commaSeparated fun f hf => ?_
    obtain ⟨r, hr, rfl⟩ := List.mem_map.mp hf
    exact Projection.readable_fragment (h r hr)

theorem readable_conditionClause {condition : Option Condition}
    (h : AllPlain (condition.elim [] Condition.functions)) :
    ∀ f ∈ conditionClause condition, f.Readable := by
  intro f hf
  cases condition with
  | none => cases hf
  | some c =>
    rcases List.mem_pair.mp hf with rfl | rfl
    · exact .singleton trivial
    · exact Condition.readable_fragment h

/-- A statement is readable if its functions have plain names. -/
theorem readable_fragment {s : Select} (h : AllPlain s.functions) : s.fragment.Readable := by
  obtain ⟨hprojections, hjoins, hcondition, hgroups, hsorts⟩ :
      AllPlain (s.projections.flatMap Projection.functions) ∧
      AllPlain (s.joins.flatMap fun j => j.condition.functions) ∧
      AllPlain (s.condition.elim [] Condition.functions) ∧
      AllPlain (s.groups.flatMap Projection.functions) ∧
      AllPlain (s.sorts.flatMap fun k => k.expression.functions) :=
    ⟨h.append_left.append_left.append_left.append_left,
      h.append_left.append_left.append_left.append_right,
      h.append_left.append_left.append_right, h.append_left.append_right, h.append_right⟩
  refine Readable.spaced ?_
  simp only [clauses, List.forall_mem_append]
  refine ⟨⟨⟨⟨⟨⟨⟨⟨⟨?select, readable_distinctClause _⟩, ?projections⟩, ?tables⟩, ?joins⟩,
    readable_conditionClause hcondition⟩, ?groups⟩, ?sorts⟩, readable_countClause _ _⟩,
    readable_countClause _ _⟩
  case select => exact List.forall_mem_singleton.mpr (.singleton trivial)
  case projections => exact readable_projectionClause hprojections.of_flatMap
  case tables =>
    refine readable_listClause _ fun f hf => ?_
    obtain ⟨t, -, rfl⟩ := List.mem_map.mp hf
    exact t.readable_fragment
  case joins =>
    intro f hf
    obtain ⟨j, hj, rfl⟩ := List.mem_map.mp hf
    exact Join.readable_fragment (hjoins.of_flatMap j hj)
  case groups =>
    refine readable_listClause _ fun f hf => ?_
    rw [Projection.groupFragments_eq_map] at hf
    obtain ⟨e, he, rfl⟩ := List.mem_map.mp hf
    obtain ⟨p, hp, hpe⟩ := List.mem_filterMap.mp he
    refine Expr.readable_fragment ?_
    rw [← Projection.functions_eq_of_grouped? hpe]
    exact hgroups.of_flatMap p hp
  case sorts =>
    refine readable_listClause _ fun f hf => ?_
    obtain ⟨k, hk, rfl⟩ := List.mem_map.mp hf
    exact SortKey.readable_fragment (hsorts.of_flatMap k hk)

end Select

end SqlSelect
