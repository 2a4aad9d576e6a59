import SqlSelect.Json.Tree

/-!
# Token lists of trees

A tree has one spelling by tokens: brackets around the items, braces around the members, commas
between them. Taking these tokens one by one builds the tree again, inside whatever containers are
open (`run?_tokens`), so a token list spells at most one tree and every tree is spelled by one.
-/

namespace SqlSelect.Json.Tree

mutual

/-- The tokens that spell a tree. -/
def tokens : Tree → List Token
  | .null => [.null]
  | .bool b => [.bool b]
  | .number n => [.number n]
  | .string units => [.string units]
  | .array items => .openBracket :: (itemTokens items ++ [.closeBracket])
  | .object members => .openBrace :: (memberTokens members ++ [.closeBrace])

/-- The items of an array with commas between them. -/
def itemTokens : List Tree → List Token
  | [] => []
  | [t] => t.tokens
  | t :: rest => t.tokens ++ .comma :: itemTokens rest

/-- The members of an object with commas between them. -/
def memberTokens : List (List StringUnit × Tree) → List Token
  | [] => []
  | [(key, t)] => .string key :: .colon :: t.tokens
  | (key, t) :: rest => .string key :: .colon :: (t.tokens ++ .comma :: memberTokens rest)

end

theorem itemTokens_cons (t u : Tree) (rest : List Tree) :
    itemTokens (t :: u :: rest) = t.tokens ++ .comma :: itemTokens (u :: rest) := by
  rw [itemTokens]
  exact List.cons_ne_nil u rest

theorem memberTokens_cons (key : List StringUnit) (t : Tree) (m : List StringUnit × Tree)
    (rest : List (List StringUnit × Tree)) :
    memberTokens ((key, t) :: m :: rest) =
      .string key :: .colon :: (t.tokens ++ .comma :: memberTokens (m :: rest)) := by
  rw [memberTokens]
  exact List.cons_ne_nil m rest

theorem itemTokens_head (t : Tree) (rest : List Tree) :
    ∃ after, itemTokens (t :: rest) = t.tokens ++ after := by
  cases rest with
  | nil => exact ⟨[], by rw [itemTokens, List.append_nil]⟩
  | cons u us => exact ⟨_, itemTokens_cons t u us⟩

theorem memberTokens_head (key : List StringUnit) (t : Tree)
    (rest : List (List StringUnit × Tree)) :
    ∃ after, memberTokens ((key, t) :: rest) = .string key :: after := by
  cases rest with
  | nil => exact ⟨_, memberTokens.eq_2 key t⟩
  | cons m ms => exact ⟨_, memberTokens_cons key t m ms⟩

/-! ## Opening a container -/

theorem tokens_head (t : Tree) :
    ∃ first rest, t.tokens = first :: rest ∧ first ≠ .closeBracket := by
  cases t <;> exact ⟨_, _, rfl, Token.noConfusion⟩

/-- The first item of an array is taken like any other value. -/
theorem run?_firstItem (t : Tree) (rest : List Token) (outer : List Opened) :
    run? (.firstItem outer) (t.tokens ++ rest) =
      run? (.value (.array [] :: outer)) (t.tokens ++ rest) := by
  obtain ⟨first, tail, htokens, hfirst⟩ := t.tokens_head
  have hstep : step? (.firstItem outer) first = step? (.value (.array [] :: outer)) first := by
    rw [step?, step?]
    exact hfirst
  rw [htokens, List.cons_append, run?, run?, hstep]

/-- The first member of an object is taken like any other member. -/
theorem run?_firstMember (key : List StringUnit) (rest : List Token) (outer : List Opened) :
    run? (.firstMember outer) (.string key :: rest) =
      run? (.member [] outer) (.string key :: rest) :=
  rfl

/-! ## Taking the tokens of a tree -/

mutual

/-- The tokens of a value leave it finished. -/
theorem run?_tokens (t : Tree) (outer : List Opened) :
    run? (.value outer) t.tokens = some (.finished t outer) := by
  match t with
  | .null => rfl
  | .bool b => rfl
  | .number n => rfl
  | .string units => rfl
  | .array [] => rfl
  | .array (t :: rest) =>
    have hitems := run?_itemTokens (t :: rest) (List.cons_ne_nil t rest) [] outer
    show run? (.firstItem outer) (itemTokens (t :: rest) ++ [.closeBracket]) = _
    obtain ⟨after, hafter⟩ := itemTokens_head t rest
    rw [hafter, List.append_assoc] at hitems ⊢
    rw [run?_firstItem, hitems]
    rfl
  | .object [] => rfl
  | .object ((key, t) :: rest) =>
    have hmembers := run?_memberTokens ((key, t) :: rest) (List.cons_ne_nil _ rest) [] outer
    show run? (.firstMember outer) (memberTokens ((key, t) :: rest) ++ [.closeBrace]) = _
    obtain ⟨after, hafter⟩ := memberTokens_head key t rest
    rw [hafter, List.cons_append] at hmembers ⊢
    rw [run?_firstMember]
    exact hmembers

/-- The tokens of some items and a closing bracket finish the array with the items before them. -/
theorem run?_itemTokens (items : List Tree) (hitems : items ≠ []) (before : List Tree)
    (outer : List Opened) :
    run? (.value (.array before :: outer)) (itemTokens items ++ [.closeBracket]) =
      some (.finished (.array (before.reverse ++ items)) outer) := by
  match items with
  | [] => exact absurd rfl hitems
  | [t] =>
    rw [itemTokens, run?_append, run?_tokens t, Option.bind_some, List.append_cons,
      ← List.reverse_cons, List.append_nil]
    rfl
  | t :: u :: rest =>
    have hrest := run?_itemTokens (u :: rest) (List.cons_ne_nil u rest) (t :: before) outer
    rw [itemTokens_cons, List.append_assoc, run?_append, run?_tokens t, Option.bind_some,
      List.append_cons before.reverse, ← List.reverse_cons, ← hrest]
    rfl

/-- The tokens of some members and a closing brace finish the object with the members before them.
-/
theorem run?_memberTokens (members : List (List StringUnit × Tree)) (hmembers : members ≠ [])
    (before : List (List StringUnit × Tree)) (outer : List Opened) :
    run? (.member before outer) (memberTokens members ++ [.closeBrace]) =
      some (.finished (.object (before.reverse ++ members)) outer) := by
  match members with
  | [] => exact absurd rfl hmembers
  | [(key, t)] =>
    show run? (.value (.object before key :: outer)) (t.tokens ++ [.closeBrace]) = _
    rw [run?_append, run?_tokens t, Option.bind_some, List.append_cons, ← List.reverse_cons,
      List.append_nil]
    rfl
  | (key, t) :: m :: rest =>
    have hrest := run?_memberTokens (m :: rest) (List.cons_ne_nil m rest) ((key, t) :: before) outer
    rw [memberTokens_cons]
    show run? (.value (.object before key :: outer))
      (t.tokens ++ .comma :: memberTokens (m :: rest) ++ [.closeBrace]) = _
    rw [List.append_assoc, run?_append, run?_tokens t, Option.bind_some,
      List.append_cons before.reverse, ← List.reverse_cons, ← hrest]
    rfl

end

/-- A tree is what its tokens spell. -/
theorem ofTokens?_tokens (t : Tree) : ofTokens? t.tokens = some t := by
  rw [ofTokens?, run?_tokens t []]

end SqlSelect.Json.Tree
