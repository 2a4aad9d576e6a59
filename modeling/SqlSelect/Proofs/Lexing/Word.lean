import SqlSelect.Proofs.Lexing.Token
import SqlSelect.Proofs.Text.Digits

/-!
# Reading one token

Each kind of token is read back from its characters, whatever follows, as long as what follows
cannot continue the token. A word must not be followed by a word character, an operator not by an
operator character, and a closing quote not by another quote.
-/

namespace SqlSelect

/-! ## Character classes -/

theorem isDigit_eq_false_of_isLower {c : Char} (h : c.isLower = true) : c.isDigit = false := by
  have hcode : 'a'.toNat ≤ c.toNat := by
    have hrange : (decide (c.val ≥ 'a'.val) && decide (c.val ≤ 'z'.val)) = true := h
    exact of_decide_eq_true (Bool.and_eq_true_iff.mp hrange).1
  rw [Bool.eq_false_iff, Ne, Char.isDigit_iff_toNat]
  intro hdigit
  have hbounds : '9'.toNat < 'a'.toNat := by decide
  omega

namespace Lexing

theorem isWordChar_of_isDigit {c : Char} (h : c.isDigit = true) : isWordChar c = true := by
  have halphanum : c.isAlphanum = true := by
    change (c.isAlpha || c.isDigit) = true
    rw [h, Bool.or_true]
  simp [isWordChar, halphanum]

theorem isWordChar_of_isLower {c : Char} (h : c.isLower = true) : isWordChar c = true := by
  have halphanum : c.isAlphanum = true := by
    change ((c.isUpper || c.isLower) || c.isDigit) = true
    rw [h, Bool.or_true, Bool.true_or]
  simp [isWordChar, halphanum]

theorem isWordChar_of_isPlainStart {c : Char} (h : isPlainStart c = true) :
    isWordChar c = true := by
  rcases Bool.or_eq_true_iff.mp h with hlower | hunderscore
  · exact isWordChar_of_isLower hlower
  · rw [beq_iff_eq.mp hunderscore]
    decide

theorem isWordChar_of_isPlainPart {c : Char} (h : isPlainPart c = true) :
    isWordChar c = true := by
  simp only [isPlainPart, Bool.or_eq_true, beq_iff_eq] at h
  rcases h with (hstart | hdigit) | rfl
  · exact isWordChar_of_isPlainStart hstart
  · exact isWordChar_of_isDigit hdigit
  · decide

/-- A plain name consists of word characters. -/
theorem isWordChar_of_mem_plainName {word : List Char} (h : isPlainName word = true) :
    ∀ c ∈ word, isWordChar c = true := by
  cases word with
  | nil => cases h
  | cons c rest =>
    obtain ⟨hstart, hrest⟩ := Bool.and_eq_true_iff.mp h
    refine List.forall_mem_cons.mpr ⟨isWordChar_of_isPlainStart hstart, fun d hd => ?_⟩
    exact isWordChar_of_isPlainPart (List.all_eq_true.mp hrest d hd)

/-- A blank is no word character. -/
theorem isBlank_eq_false_of_isWordChar {c : Char} (h : isWordChar c = true) :
    isBlank c = false := by
  rw [Bool.eq_false_iff]
  intro hblank
  simp only [isBlank, Bool.or_eq_true, beq_iff_eq] at hblank
  rcases hblank with ((((rfl | rfl) | rfl) | rfl) | rfl) | rfl <;> exact absurd h (by decide)

theorem ne_quote_of_isWordChar {c : Char} (h : isWordChar c = true) : c ≠ '"' := by
  rintro rfl
  exact absurd h (by decide)

/-- The operator characters are neither blanks nor quotes nor word characters. -/
theorem isOperatorChar_facts {c : Char} (h : isOperatorChar c = true) :
    isBlank c = false ∧ c ≠ '"' ∧ isWordChar c = false := by
  have hall : "+-*/<>=~!@#%^&|`?".toList.all (fun d =>
      !isBlank d && d != '"' && !isWordChar d) = true := by decide
  simpa [and_assoc] using List.all_eq_true.mp hall c (List.contains_iff_mem.mp h)

theorem isOperatorChar_eq_false_of_isWordChar {c : Char} (h : isWordChar c = true) :
    isOperatorChar c = false := by
  rw [Bool.eq_false_iff]
  intro hoperator
  rw [(isOperatorChar_facts hoperator).2.2] at h
  cases h

end Lexing

/-! ## The token of a word -/

namespace Token

open Lexing

/-- Only a word that starts with a dollar sign can be a parameter. -/
theorem ofWord?_of_ne_dollar {c : Char} (hc : c ≠ '$') (word : List Char) :
    ofWord? (c :: word) =
      if (c :: word).all Char.isDigit then some (.number (Nat.ofDigitChars 10 (c :: word) 0))
      else if isPlainName (c :: word) then some (ofBareWord (String.ofList (c :: word)))
      else (Keyword.ofSpelling? (c :: word)).map .keyword := by
  rw [ofWord?]
  rintro digits heq
  exact hc (List.cons.inj heq).1

/-- Digits are no dollar sign, so a number is not taken for a parameter. -/
theorem ofWord?_digits (n : Nat) : ofWord? (Nat.toDigits 10 n) = some (.number n) := by
  have hall : ∀ c ∈ Nat.toDigits 10 n, c.isDigit = true :=
    fun c hc => Nat.isDigit_of_mem_toDigits (by decide) (by decide) hc
  cases hdigits : Nat.toDigits 10 n with
  | nil => exact absurd hdigits Nat.toDigits_ne_nil
  | cons c rest =>
    have hc : c ≠ '$' := by
      rintro rfl
      exact absurd (hall '$' (by simp [hdigits])) (by decide)
    rw [hdigits] at hall
    rw [ofWord?_of_ne_dollar hc, if_pos (List.all_eq_true.mpr hall), ← hdigits,
      Nat.ofDigitChars_ten_toDigits]

theorem ofWord?_placeholder (n : Nat) : ofWord? (placeholder n) = some (.parameter n) := by
  have hall : (Nat.toDigits 10 n).all Char.isDigit = true :=
    List.all_eq_true.mpr fun c hc => Nat.isDigit_of_mem_toDigits (by decide) (by decide) hc
  rw [placeholder, ofWord?, if_pos ⟨Nat.toDigits_ne_nil, hall⟩, Nat.ofDigitChars_ten_toDigits]

/-- A plain name starts with a letter or an underscore, so it is neither a parameter nor a number.
-/
theorem ofWord?_plainName {word : String} (h : isPlainName word.toList = true) :
    ofWord? word.toList = some (ofBareWord word) := by
  cases hword : word.toList with
  | nil => simp [hword, isPlainName] at h
  | cons c rest =>
    rw [hword] at h
    have hstart : isPlainStart c = true := (Bool.and_eq_true_iff.mp h).1
    have hc : c ≠ '$' := by
      rintro rfl
      exact absurd hstart (by decide)
    have hdigit : c.isDigit = false := by
      rcases Bool.or_eq_true_iff.mp hstart with hlower | hunderscore
      · exact isDigit_eq_false_of_isLower hlower
      · rw [beq_iff_eq.mp hunderscore]
        decide
    rw [ofWord?_of_ne_dollar hc, List.all_cons, hdigit, Bool.false_and,
      if_neg Bool.false_ne_true, if_pos h, ← hword, String.ofList_toList]

theorem ofWord?_keyword (k : Keyword) : ofWord? k.spelling.toList = some (.keyword k) := by
  cases k <;> decide +kernel

end Token

/-! ## One lexeme and what follows it -/

namespace Lexing

theorem next?_space (rest : List Char) : next? (' ' :: rest) = some (none, rest) := by
  rw [next?, if_pos (by decide)]

/-- A word is read up to the first character that is no word character. -/
theorem next?_word {word rest : List Char} {t : Token} (hnil : word ≠ [])
    (hword : ∀ c ∈ word, isWordChar c = true) (ht : Token.ofWord? word = some t)
    (hrest : ∀ c ∈ rest.head?, isWordChar c = false) :
    next? (word ++ rest) = some (some t, rest) := by
  cases word with
  | nil => exact absurd rfl hnil
  | cons c word =>
    have hc : isWordChar c = true := hword c List.mem_cons_self
    have hmore : ∀ d ∈ word, isWordChar d = true := fun d hd => hword d (List.mem_cons_of_mem c hd)
    rw [List.cons_append, next?, isBlank_eq_false_of_isWordChar hc,
      if_neg Bool.false_ne_true, if_neg (ne_quote_of_isWordChar hc), if_pos hc,
      Text.takeWhile_append_stop hmore hrest, Text.dropWhile_append_stop hmore hrest, ht,
      Option.map_some]

/-- An operator is read up to the first character that is no operator character. -/
theorem next?_operator {run rest : List Char} {s : Symbol} (hnil : run ≠ [])
    (hrun : ∀ c ∈ run, isOperatorChar c = true) (hs : Symbol.ofSpelling? run = some s)
    (hrest : ∀ c ∈ rest.head?, isOperatorChar c = false) :
    next? (run ++ rest) = some (some (.symbol s), rest) := by
  cases run with
  | nil => exact absurd rfl hnil
  | cons c run =>
    have hc : isOperatorChar c = true := hrun c List.mem_cons_self
    obtain ⟨hblank, hquote, hword⟩ := isOperatorChar_facts hc
    have hmore : ∀ d ∈ run, isOperatorChar d = true :=
    fun d hd => hrun d (List.mem_cons_of_mem c hd)
    rw [List.cons_append, next?, hblank, if_neg Bool.false_ne_true, if_neg hquote, hword,
      if_neg Bool.false_ne_true, if_pos hc, Text.takeWhile_append_stop hmore hrest,
      Text.dropWhile_append_stop hmore hrest, hs, Option.map_some]

/-- The body of a quoted name is read back: each of its quotes stands doubled, so the closing quote
is the first that stands alone. -/
theorem readQuoted_append {rest : List Char} (hrest : ∀ c ∈ rest.head?, c ≠ '"')
    (name : List Char) :
    readQuoted (name.flatMap quotedChar ++ '"' :: rest) = some (name, rest) := by
  induction name with
  | nil =>
    cases rest with
    | nil => rfl
    | cons c rest =>
      -- another quote here would make a doubled one with the closing quote
      have hc : c ≠ '"' := hrest c rfl
      rw [List.flatMap_nil, List.nil_append, readQuoted]
      rintro rest' heq
      exact hc (List.cons.inj heq).1
  | cons c name ih =>
    rw [List.flatMap_cons, List.append_assoc]
    by_cases hc : c = '"'
    · subst hc
      rw [quotedChar, if_pos rfl, List.cons_append, List.cons_append, List.nil_append, readQuoted,
        ih, Option.map_some]
    · rw [quotedChar, if_neg hc, List.cons_append, List.nil_append, readQuoted, ih, Option.map_some]
      · rintro rest' rfl
        exact fun _ => hc rfl
      · exact fun h => hc h

/-- A name in quotes is read up to its closing quote, whatever its characters are. -/
theorem next?_quotedName (name : String) {rest : List Char} (hrest : ∀ c ∈ rest.head?, c ≠ '"') :
    next? (quotedName name ++ rest) = some (some (.name name), rest) := by
  rw [quotedName, List.cons_append, List.append_assoc, List.singleton_append, next?,
    if_neg (by decide), if_pos rfl, readQuoted_append hrest, Option.map_some, String.ofList_toList]

end Lexing

end SqlSelect
