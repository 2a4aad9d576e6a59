import SqlSelect.Proofs.Binding.Agreement
import SqlSelect.Proofs.Binding.Template

/-!
# The numbering of placeholders

Parts of a query are written one after another over one list of bound values. Each adds its literals
at the end, and its text is a template of its own whose holes hold the numbers of just these values.
-/

namespace SqlSelect

open Pass

/-- A part of a query that can be written by itself. -/
inductive Part where
  | column (c : Column)
  | table (t : TableRef)
  | projection (p : Projection)
  | expr (e : Expr)
  | condition (c : Condition)
  | sortKey (k : SortKey)
  | join (j : Join)
  | select (s : Select)
  /-- a value by itself -/
  | literal (v : Value)

namespace Part

/-- The pass of a part. -/
def pass (q : Quoting) : Part → Pass String
  | .column c => c.pass q
  | .table t => t.pass q
  | .projection p => p.pass q
  | .expr e => e.pass q
  | .condition c => c.pass q
  | .sortKey k => k.pass q
  | .join j => j.pass q
  | .select s => s.pass q
  | .literal v => bindValue v

/-- The literals of a part from left to right. -/
def literals : Part → List Value
  | .column _ => []
  | .table _ => []
  | .projection p => p.literals
  | .expr e => e.literals
  | .condition c => c.literals
  | .sortKey k => k.literals
  | .join j => j.literals
  | .select s => s.literals
  | .literal v => [v]

/-- The fragment of a part. -/
def fragment : Part → Fragment
  | .column c => c.fragment
  | .table t => t.fragment
  | .projection p => p.fragment
  | .expr e => e.fragment
  | .condition c => c.fragment
  | .sortKey k => k.fragment
  | .join j => j.fragment
  | .select s => s.fragment
  | .literal v => [.literal v]

/-- The text of a part with a hole for each literal. -/
def template (q : Quoting) (p : Part) : Template := p.fragment.template q

theorem literals_fragment (p : Part) : p.fragment.literals = p.literals := by
  cases p with
  | column c => exact c.literals_fragment
  | table t => exact t.literals_fragment
  | projection p => exact p.literals_fragment
  | expr e => exact e.literals_fragment
  | condition c => exact c.literals_fragment
  | sortKey k => exact k.literals_fragment
  | join j => exact j.literals_fragment
  | select s => exact s.literals_fragment
  | literal v => rfl

theorem writes_pass (q : Quoting) (p : Part) : Writes q (p.pass q) p.fragment := by
  cases p with
  | column c => exact c.writes_pass q
  | table t => exact t.writes_pass q
  | projection p => exact p.writes_pass q
  | expr e => exact e.writes_pass q
  | condition c => exact c.writes_pass q
  | sortKey k => exact k.writes_pass q
  | join j => exact j.writes_pass q
  | select s => exact s.writes_pass q
  | literal v => exact writes_bindValue q v

theorem flatMap_literals_fragment (parts : List Part) :
    (parts.map fragment).flatMap Fragment.literals = parts.flatMap literals := by
  rw [List.flatMap_map]
  exact List.flatMap_congr fun p _ => p.literals_fragment

end Part

/-- The text written at a position is that of the fragment there, behind all values that the
fragments before it bind. -/
theorem Fragment.getElem?_writeEach (q : Quoting) (binds : List Value) (fs : List Fragment)
    (i : Nat) :
    (Fragment.writeEach q binds fs)[i]? =
      fs[i]?.map fun f => (f.write q (binds ++ (fs.take i).flatMap Fragment.literals)).text := by
  induction fs generalizing binds i with
  | nil => rfl
  | cons f fs ih =>
    cases i with
    | zero => simp [Fragment.writeEach]
    | succ i =>
      rw [Fragment.writeEach, List.getElem?_cons_succ, ih, List.getElem?_cons_succ,
        List.take_succ_cons, List.flatMap_cons, List.append_assoc]

/-- Parts are written one after another over one list of bound values. In the end the list has grown
by the literals of the parts in order. The text of each part is what its fragment writes, and is its
template, with one hole for each of its literals, whose holes hold the placeholders of the numbers
behind the `n` values bound before; and the value that such a number stands for is the literal. -/
theorem run_parts (q : Quoting) (binds : List Value) (parts : List Part) :
    ∃ texts final, (parts.mapM (Part.pass q)).run binds = (texts, final) ∧
      final = binds ++ parts.flatMap Part.literals ∧
      texts.length = parts.length ∧
      ∀ (i : Nat) (h : i < parts.length),
        let before := binds ++ (parts.take i).flatMap Part.literals
        let values := parts[i].literals
        (parts[i].template q).holes = values.length ∧
        texts[i]? = some (parts[i].fragment.write q before).text ∧
        texts[i]? = some (String.ofList ((parts[i].template q).fill
          ((List.range' (before.length + 1) values.length).map placeholder))) ∧
        ∀ k < values.length, final[before.length + k]? = values[k]? := by
  have hrun := writesEach_mapM (fun p (_ : p ∈ parts) => p.writes_pass q) binds
  rw [Part.flatMap_literals_fragment] at hrun
  refine ⟨_, _, hrun, rfl, ?_, ?_⟩
  · rw [Fragment.length_writeEach, List.length_map]
  intro i h before values
  have htext : (Fragment.writeEach q binds (parts.map Part.fragment))[i]? =
      some (parts[i].fragment.write q before).text := by
    rw [Fragment.getElem?_writeEach, ← List.map_take, Part.flatMap_literals_fragment,
      List.getElem?_map, List.getElem?_eq_getElem h]
    rfl
  refine ⟨?_, htext, ?_, ?_⟩
  · rw [Part.template, Fragment.holes_template, Part.literals_fragment]
  · rw [htext, Part.template, Fragment.write, Fragment.chars_eq_fill, Part.literals_fragment]
  · intro k hk
    -- the list of all literals is that of the parts before, of this one and of the parts behind
    have hsplit : parts.flatMap Part.literals = (parts.take i).flatMap Part.literals ++
        (values ++ (parts.drop (i + 1)).flatMap Part.literals) := by
      rw [← List.flatMap_cons, ← List.flatMap_append, ← List.drop_eq_getElem_cons h,
        List.take_append_drop]
    rw [hsplit, ← List.append_assoc, List.getElem?_append_right (Nat.le_add_right _ _),
      Nat.add_sub_cancel_left, List.getElem?_append_left hk]

end SqlSelect
