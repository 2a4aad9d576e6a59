import SqlSelect.Proofs.Lexing.Word

/-!
# One name at the front of a text

PostgreSQL reads a name in one of two forms. A bare name is a word, folded to lower case, that is
not reserved; it ends before the first character that cannot continue a word. A name in double
quotes ends at the first quote that is not doubled, and each doubled quote in it stands for one. A
name that was quoted where it must be is read back from its text, and nothing of what follows is
taken with it.
-/

namespace SqlSelect

namespace Lexing

/-- A character that a bare word may start with. -/
def isWordStart (c : Char) : Bool :=
  c.isAlpha || c == '_' || 0x80 ≤ c.toNat

/-- A word at the front of a text, folded to lower case, and what follows it. A reserved word is no
name. -/
def readBare? (text : List Char) : Option (String × List Char) :=
  let word := String.ofList ((text.takeWhile isWordChar).map Char.toLower)
  if text.head?.any isWordStart && !reservedWords.contains word then
    some (word, text.dropWhile isWordChar)
  else none

/-- A name at the front of a text, bare or in double quotes, and what follows it. -/
def readName? : List Char → Option (String × List Char)
  | '"' :: rest => (readQuoted rest).map fun r => (String.ofList r.1, r.2)
  | text => readBare? text

/-- The pattern `[a-z_][a-z0-9_$]*`, matched by a whole name. -/
def MatchesPlain (name : List Char) : Prop :=
  ∃ first rest, name = first :: rest ∧ (('a' ≤ first ∧ first ≤ 'z') ∨ first = '_') ∧
    ∀ c ∈ rest, ('a' ≤ c ∧ c ≤ 'z') ∨ ('0' ≤ c ∧ c ≤ '9') ∨ c = '_' ∨ c = '$'

/-! ## Plain names -/

theorem isLower_iff {c : Char} : c.isLower = true ↔ 'a' ≤ c ∧ c ≤ 'z' := by
  show (decide (97 ≤ c.val) && decide (c.val ≤ 122)) = true ↔ _
  rw [Bool.and_eq_true, decide_eq_true_eq, decide_eq_true_eq]
  rfl

theorem isDigit_iff {c : Char} : c.isDigit = true ↔ '0' ≤ c ∧ c ≤ '9' := by
  simp only [Char.isDigit, Bool.and_eq_true, decide_eq_true_eq, ge_iff_le]
  rfl

theorem isPlainStart_iff {c : Char} :
    isPlainStart c = true ↔ ('a' ≤ c ∧ c ≤ 'z') ∨ c = '_' := by
  rw [isPlainStart, Bool.or_eq_true, isLower_iff, beq_iff_eq]

theorem isPlainPart_iff {c : Char} :
    isPlainPart c = true ↔
      ('a' ≤ c ∧ c ≤ 'z') ∨ ('0' ≤ c ∧ c ≤ '9') ∨ c = '_' ∨ c = '$' := by
  rw [isPlainPart, Bool.or_eq_true, Bool.or_eq_true, isPlainStart_iff, isDigit_iff, beq_iff_eq]
  tauto

/-- The check for plain names decides the pattern. -/
theorem isPlainName_iff {name : List Char} : isPlainName name = true ↔ MatchesPlain name := by
  constructor
  · intro h
    cases name with
    | nil => cases h
    | cons first rest =>
      obtain ⟨hfirst, hrest⟩ := Bool.and_eq_true_iff.mp h
      refine ⟨first, rest, rfl, isPlainStart_iff.mp hfirst, ?_⟩
      intro c hc
      exact isPlainPart_iff.mp (List.all_eq_true.mp hrest c hc)
  · rintro ⟨first, rest, rfl, hfirst, hrest⟩
    refine Bool.and_eq_true_iff.mpr ⟨isPlainStart_iff.mpr hfirst, List.all_eq_true.mpr ?_⟩
    intro c hc
    exact isPlainPart_iff.mpr (hrest c hc)

theorem isWordStart_of_isPlainStart {c : Char} (h : isPlainStart c = true) :
    isWordStart c = true := by
  rcases Bool.or_eq_true_iff.mp h with hlower | hunderscore
  · have halpha : c.isAlpha = true := Bool.or_eq_true_iff.mpr (.inr hlower)
    rw [isWordStart, halpha, Bool.true_or, Bool.true_or]
  · rw [beq_iff_eq.mp hunderscore]
    decide

/-- Folding leaves the characters of plain names as they are. -/
theorem toLower_of_isPlainPart {c : Char} (h : isPlainPart c = true) : c.toLower = c := by
  have hupper : ¬ ('A' ≤ c ∧ c ≤ 'Z') := by
    rintro ⟨hA, hZ⟩
    rcases isPlainPart_iff.mp h with ⟨ha, -⟩ | ⟨-, h9⟩ | rfl | rfl
    · exact absurd (Char.le_trans ha hZ) (by decide)
    · exact absurd (Char.le_trans hA h9) (by decide)
    · exact absurd hZ (by decide)
    · exact absurd hA (by decide)
  unfold Char.toLower
  split
  · rename_i hrange
    exact absurd hrange hupper
  · rfl

theorem map_toLower_plainName {name : List Char} (h : isPlainName name = true) :
    name.map Char.toLower = name := by
  cases name with
  | nil => cases h
  | cons first rest =>
    obtain ⟨hfirst, hrest⟩ := Bool.and_eq_true_iff.mp h
    have hpart : ∀ c ∈ first :: rest, isPlainPart c = true := by
      refine List.forall_mem_cons.mpr ⟨?_, List.all_eq_true.mp hrest⟩
      rw [isPlainPart, hfirst, Bool.true_or, Bool.true_or]
    rw [List.map_congr_left fun c hc => toLower_of_isPlainPart (hpart c hc), List.map_id']

/-! ## Reading a name back -/

/-- What follows ends a name of either form: it is no quote, and nothing that continues a word. -/
def EndsName (rest : List Char) : Prop :=
  ∀ c ∈ rest.head?, c ≠ '"' ∧ isWordChar c = false

theorem endsName_nil : EndsName [] := by
  rintro c ⟨⟩

theorem endsName_cons {c : Char} (hquote : c ≠ '"') (hword : isWordChar c = false)
    (rest : List Char) : EndsName (c :: rest) := by
  rintro d ⟨⟩
  exact ⟨hquote, hword⟩

/-- A bare name is read up to its last character. -/
theorem readName?_bare {name : String} (h : isBareName name = true) {rest : List Char}
    (hrest : EndsName rest) : readName? (name.toList ++ rest) = some (name, rest) := by
  obtain ⟨hplain, hreserved⟩ := Bool.and_eq_true_iff.mp h
  have hword := isWordChar_of_mem_plainName hplain
  have hfold := map_toLower_plainName hplain
  have hend : ∀ c ∈ rest.head?, isWordChar c = false := fun c hc => (hrest c hc).2
  have htake := Text.takeWhile_append_stop hword hend
  have hdrop := Text.dropWhile_append_stop hword hend
  have hread : readBare? (name.toList ++ rest) = some (name, rest) := by
    have hstart : (name.toList ++ rest).head?.any isWordStart = true := by
      cases hname : name.toList with
      | nil => rw [hname] at hplain; cases hplain
      | cons first more =>
        rw [hname] at hplain
        exact isWordStart_of_isPlainStart (Bool.and_eq_true_iff.mp hplain).1
    rw [readBare?, htake, hdrop, hfold, String.ofList_toList]
    simp only [hstart, hreserved, Bool.and_self, if_true]
  rw [← hread, readName?]
  -- a bare name does not open with a quote
  rintro more heq
  cases hname : name.toList with
  | nil => rw [hname] at hplain; cases hplain
  | cons first tail =>
    rw [hname] at heq hword
    exact ne_quote_of_isWordChar (hword first List.mem_cons_self) (List.cons.inj heq).1

/-- A name in quotes is read up to its closing quote. -/
theorem readName?_quotedName (name : String) {rest : List Char} (hrest : EndsName rest) :
    readName? (quotedName name ++ rest) = some (name, rest) := by
  rw [quotedName, List.cons_append, List.append_assoc, List.singleton_append, readName?,
    readQuoted_append fun c hc => (hrest c hc).1, Option.map_some, String.ofList_toList]

end Lexing

open Lexing

namespace Quoting

/-- A strategy that quotes where it must writes a name either bare or in quotes. -/
theorem nameChars_cases {q : Quoting} (hq : q = .whenNeeded ∨ q = .always) (name : String) :
    (q = .whenNeeded ∧ isBareName name = true ∧ q.nameChars name = name.toList) ∨
    (¬ (q = .whenNeeded ∧ isBareName name = true) ∧ q.nameChars name = quotedName name) := by
  rcases hq with rfl | rfl
  · by_cases hbare : isBareName name = true
    · exact .inl ⟨rfl, hbare, by simp [nameChars, quotes, hbare]⟩
    · exact .inr ⟨fun h => hbare h.2, by simp [nameChars, quotes, hbare]⟩
  · exact .inr ⟨fun h => absurd h.1 (by decide), rfl⟩

/-- What a strategy writes for a name is read back as this name, whatever the name is, and the
reader stops where the name ends. A name is bare only if it may be, and no two names are written
alike. -/
theorem readName?_quote {q : Quoting} (hq : q = .whenNeeded ∨ q = .always) :
    (∀ (name : String) (rest : List Char), EndsName rest →
      readName? ((q.quote name).toList ++ rest) = some (name, rest)) ∧
    (∀ name : String, (q.quote name).toList.head? ≠ some '"' ↔
      q = .whenNeeded ∧ MatchesPlain name.toList ∧ name ∉ reservedWords) ∧
    Function.Injective q.quote := by
  have hread : ∀ (name : String) (rest : List Char), EndsName rest →
      readName? ((q.quote name).toList ++ rest) = some (name, rest) := by
    intro name rest hrest
    rw [toList_quote]
    rcases nameChars_cases hq name with ⟨-, hbare, hchars⟩ | ⟨-, hchars⟩
    · rw [hchars]
      exact readName?_bare hbare hrest
    · rw [hchars]
      exact readName?_quotedName name hrest
  refine ⟨hread, fun name => ?_, fun name name' heq => ?_⟩
  · have hbare_iff : isBareName name = true ↔
        MatchesPlain name.toList ∧ name ∉ reservedWords := by
      rw [isBareName, Bool.and_eq_true, isPlainName_iff, Bool.not_eq_true', Bool.eq_false_iff, Ne,
        List.contains_iff_mem]
    rw [toList_quote, ← hbare_iff]
    rcases nameChars_cases hq name with ⟨hneeded, hbare, hchars⟩ | ⟨hquoted, hchars⟩
    · refine iff_of_true ?_ ⟨hneeded, hbare⟩
      have hplain := (Bool.and_eq_true_iff.mp hbare).1
      rw [hchars]
      intro hhead
      exact ne_quote_of_isWordChar
        (isWordChar_of_mem_plainName hplain '"' (List.mem_of_mem_head? hhead)) rfl
    · refine iff_of_false (fun hhead => hhead ?_) hquoted
      rw [hchars]
      rfl
  · have hname := hread name [] endsName_nil
    have hname' := hread name' [] endsName_nil
    rw [heq, hname'] at hname
    cases hname
    rfl

/-- A reserved word that ends in a line break, before a parenthesis. -/
theorem readName?_quote_lineBreak :
    EndsName [')', '"'] ∧
      readName? ((whenNeeded.quote "end\n").toList ++ [')', '"']) = some ("end\n", [')', '"']) :=
  have hend : EndsName [')', '"'] := endsName_cons (by decide) (by decide) ['"']
  ⟨hend, (readName?_quote (.inl rfl)).1 "end\n" [')', '"'] hend⟩

end Quoting

end SqlSelect
