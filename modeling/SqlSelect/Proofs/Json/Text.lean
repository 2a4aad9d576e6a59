import SqlSelect.Proofs.Json.Tokens
import SqlSelect.Proofs.Json.Literal
import SqlSelect.Proofs.Json.Float

/-!
# Reading the compact text

The compact text of a value falls into the tokens of its tree, one piece after the other:
punctuation and literals end by themselves, and a numeral ends before the punctuation that follows
it. So the text of every value is the text of one tree (`parse?_text`), in which the strings are
kept by their units and the numbers by their numerals.
-/

namespace SqlSelect.Json

mutual

/-- The tree that the text of a value spells. -/
def tree : Json → Tree
  | .null => .null
  | .bool b => .bool b
  | .number n => .number n.numeral
  | .string s => .string (units s)
  | .array items => .array (itemTrees items)
  | .object members => .object (memberTrees members)

/-- The trees of the items of an array. -/
def itemTrees : List Json → List Tree
  | [] => []
  | x :: rest => x.tree :: itemTrees rest

/-- The keys and trees of the members of an object. -/
def memberTrees : List (String × Json) → List (List StringUnit × Tree)
  | [] => []
  | (key, x) :: rest => (units key, x.tree) :: memberTrees rest

end

/-! ## Pieces of text -/

/-- A text that falls into the given tokens, whatever follows that does not continue a numeral. -/
def Lexes (text : List Char) (tokens : List Token) : Prop :=
  ∀ rest, Numeral.Ends rest → tokens? (text ++ rest) = (tokens? rest).map (tokens ++ ·)

/-- One token is split off where it is found. -/
theorem tokens?_of_next? {c : Char} {text rest : List Char} {t : Token}
    (hspace : isSpace c = false) (h : next? (c :: text) = some (t, rest)) :
    tokens? (c :: text) = (tokens? rest).map (t :: ·) := by
  rw [tokens?, if_neg (Bool.eq_false_iff.mp hspace)]
  split
  · rename_i hnone
    rw [hnone] at h
    cases h
  · rename_i hsome
    rw [hsome] at h
    cases h
    rfl

theorem Lexes.of_next? {c : Char} {text : List Char} {t : Token} (hspace : isSpace c = false)
    (h : ∀ rest, Numeral.Ends rest → next? (c :: text ++ rest) = some (t, rest)) :
    Lexes (c :: text) [t] := by
  intro rest hrest
  exact tokens?_of_next? hspace (h rest hrest)

/-- Two texts in a row, the second of which does not continue a numeral. -/
theorem Lexes.append {front back : List Char} {ts us : List Token} (hfront : Lexes front ts)
    (hback : Lexes back us) (hends : ∀ rest, Numeral.Ends rest → Numeral.Ends (back ++ rest)) :
    Lexes (front ++ back) (ts ++ us) := by
  intro rest hrest
  rw [List.append_assoc, hfront _ (hends rest hrest), hback rest hrest, Option.map_map]
  congr 1
  funext vs
  exact (List.append_assoc ts us vs).symm

/-- A mark of punctuation is a token by itself. -/
def Marks (c : Char) (t : Token) : Prop :=
  isSpace c = false ∧ Numeral.continues c = false ∧ ∀ rest, next? (c :: rest) = some (t, rest)

theorem marks_openBrace : Marks '{' .openBrace := ⟨rfl, rfl, fun _ => rfl⟩

theorem marks_closeBrace : Marks '}' .closeBrace := ⟨rfl, rfl, fun _ => rfl⟩

theorem marks_openBracket : Marks '[' .openBracket := ⟨rfl, rfl, fun _ => rfl⟩

theorem marks_closeBracket : Marks ']' .closeBracket := ⟨rfl, rfl, fun _ => rfl⟩

theorem marks_colon : Marks ':' .colon := ⟨rfl, rfl, fun _ => rfl⟩

theorem marks_comma : Marks ',' .comma := ⟨rfl, rfl, fun _ => rfl⟩

/-- A mark goes in front of any text, also one that continues a numeral. -/
theorem Marks.lexes {c : Char} {t : Token} (h : Marks c t) {text : List Char} {ts : List Token}
    (htext : Lexes text ts) : Lexes (c :: text) (t :: ts) := by
  intro rest hrest
  rw [List.cons_append, tokens?_of_next? h.1 (h.2.2 _), htext rest hrest, Option.map_map]
  rfl

theorem lexes_nil : Lexes [] [] := by
  intro rest _
  exact (Option.map_id' (x := tokens? rest)).symm

/-- A text, a mark and another text. -/
theorem Lexes.append_mark {c : Char} {t : Token} (h : Marks c t) {front back : List Char}
    {ts us : List Token} (hfront : Lexes front ts) (hback : Lexes back us) :
    Lexes (front ++ c :: back) (ts ++ t :: us) :=
  hfront.append (h.lexes hback) fun _ _ => Numeral.ends_cons h.2.1 _

/-! ## Strings and numbers -/

theorem lexes_stringChars (s : String) : Lexes (stringChars s) [.string (units s)] := by
  apply Lexes.of_next? rfl
  intro rest _
  have hscan := scanString?_literal s rest
  show (scanString? (s.toList.flatMap escape ++ ['"'] ++ rest)).map _ = _
  rw [List.append_assoc, List.singleton_append, hscan]
  rfl

/-- A numeral starts with a digit or a minus, so it is scanned as one. -/
theorem next?_numeral {c : Char} (h : c = '-' ∨ c.isDigit = true) (text : List Char) :
    next? (c :: text) = (scanNumeral? (c :: text)).map fun r => (.number r.1, r.2) := by
  unfold next?
  split
  case h_1 heq => cases heq
  case h_12 => rfl
  -- no other token starts like a numeral
  all_goals
    rename_i heq
    rw [(List.cons.inj heq).1] at h
    exact absurd h (by decide)

theorem lexes_numeral {n : Numeral} (h : n.Proper) : Lexes n.chars [.number n] := by
  have hhead : ∃ c text, n.chars = c :: text ∧ (c = '-' ∨ c.isDigit = true) := by
    rw [Numeral.chars]
    cases n.negative with
    | true => exact ⟨_, _, rfl, .inl rfl⟩
    | false =>
      obtain ⟨c, digits, hwhole⟩ := List.exists_cons_of_ne_nil h.whole_ne_nil
      refine ⟨c, _, by rw [hwhole]; rfl, .inr (h.whole_digits c ?_)⟩
      rw [hwhole]
      exact List.mem_cons_self
  obtain ⟨c, text, hchars, hc⟩ := hhead
  have hspace : isSpace c = false := by
    rcases hc with rfl | hdigit
    · rfl
    · unfold isSpace
      simp only [Bool.or_eq_false_iff, beq_eq_false_iff_ne]
      refine ⟨⟨⟨?_, ?_⟩, ?_⟩, ?_⟩ <;>
      · rintro rfl
        revert hdigit
        decide
  rw [hchars]
  apply Lexes.of_next? hspace
  intro rest hrest
  rw [List.cons_append, next?_numeral hc, ← List.cons_append, ← hchars,
    Numeral.scanNumeral?_chars h hrest, Option.map_some]

/-! ## Values -/

mutual

/-- The text of a value falls into the tokens of its tree. -/
theorem lexes_chars (x : Json) : Lexes x.chars x.tree.tokens := by
  match x with
  | .null => exact Lexes.of_next? rfl fun _ _ => rfl
  | .bool true => exact Lexes.of_next? rfl fun _ _ => rfl
  | .bool false => exact Lexes.of_next? rfl fun _ _ => rfl
  | .number n =>
    show Lexes n.chars _
    rw [← n.chars_numeral]
    exact lexes_numeral n.proper_numeral
  | .string s => exact lexes_stringChars s
  | .array items =>
    exact marks_openBracket.lexes ((lexes_itemChars items).append_mark marks_closeBracket lexes_nil)
  | .object members =>
    exact marks_openBrace.lexes
      ((lexes_memberChars members).append_mark marks_closeBrace lexes_nil)

theorem lexes_itemChars (items : List Json) :
    Lexes (itemChars items) (Tree.itemTokens (itemTrees items)) := by
  match items with
  | [] => exact lexes_nil
  | [x] => exact lexes_chars x
  | x :: y :: rest =>
    exact (lexes_chars x).append_mark marks_comma (lexes_itemChars (y :: rest))

theorem lexes_memberChars (members : List (String × Json)) :
    Lexes (memberChars members) (Tree.memberTokens (memberTrees members)) := by
  match members with
  | [] => exact lexes_nil
  | [(key, x)] => exact (lexes_stringChars key).append_mark marks_colon (lexes_chars x)
  | (key, x) :: m :: rest =>
    exact (lexes_stringChars key).append_mark marks_colon
      ((lexes_chars x).append_mark marks_comma (lexes_memberChars (m :: rest)))

end

/-- The text of a value is read as its tree. -/
theorem parse?_text (x : Json) : Tree.parse? x.text = some x.tree := by
  have hlex := lexes_chars x [] Numeral.ends_nil
  have htokens : tokens? [] = some [] := by rw [tokens?]
  rw [htokens, Option.map_some, List.append_nil, List.append_nil] at hlex
  rw [Tree.parse?, text, String.toList_ofList, hlex, Option.bind_some, Tree.ofTokens?_tokens]

end SqlSelect.Json
