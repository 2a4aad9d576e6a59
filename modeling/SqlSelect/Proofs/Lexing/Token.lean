import SqlSelect.Sql.Fragment
import SqlSelect.Sql.Quoting
import Mathlib.Tactic.SplitIfs

/-!
# Tokens

How PostgreSQL cuts a statement into tokens, as far as `SELECT` statements go. A run of word
characters is one token: a number, a parameter `$n`, a bare name in lower case, or a keyword in
capitals. What stands in double quotes is a name, in which a doubled quote stands for one. A run of
operator characters is one symbol, and a punctuation mark stands for itself. Everything else, an
unknown word, an unknown operator or an open quote, is refused.
-/

namespace SqlSelect

/-- A token of a statement. -/
inductive Token where
  | keyword (k : Keyword)
  /-- a name, bare or in quotes -/
  | name (word : String)
  /-- a reserved word without quotes -/
  | reserved (word : String)
  | symbol (s : Symbol)
  | number (n : Nat)
  /-- the placeholder `$n` -/
  | parameter (n : Nat)
deriving DecidableEq

/-- A blank or a token, with the characters that it is written in. A blank is no token. -/
structure Lexeme where
  source : List Char
  token? : Option Token
deriving DecidableEq

/-! ## Words and symbols -/

/-- All keywords. -/
def Keyword.list : List Keyword :=
  [.select, .distinct, .from, .inner, .left, .right, .full, .join, .on, .as, .where, .group, .by,
   .order, .limit, .offset, .asc, .desc, .nulls, .first, .last, .and, .or, .not, .is, .null, .in,
   .like, .ilike, .true, .false]

/-- The keyword with a spelling. -/
def Keyword.ofSpelling? (word : List Char) : Option Keyword :=
  Keyword.list.find? fun k => k.spelling.toList == word

/-- All symbols. -/
def Symbol.list : List Symbol :=
  [.comma, .dot, .openParen, .closeParen, .star, .plus, .minus, .slash, .percent, .concat, .equal,
   .notEqual, .less, .lessEqual, .greater, .greaterEqual]

/-- The symbol with a spelling. -/
def Symbol.ofSpelling? (run : List Char) : Option Symbol :=
  Symbol.list.find? fun s => s.spelling.toList == run

/-- Whether a symbol is an operator; the others are punctuation marks. -/
def Symbol.isOperator : Symbol → Bool
  | .comma | .dot | .openParen | .closeParen => false
  | _ => true

namespace Token

/-- A bare word: a name, unless the word is reserved. -/
def ofBareWord (word : String) : Token :=
  if reservedWords.contains word then .reserved word else .name word

/-- The token of a run of word characters. -/
def ofWord? (word : List Char) : Option Token :=
  match word with
  | '$' :: digits =>
    if digits ≠ [] ∧ digits.all Char.isDigit then some (.parameter (Nat.ofDigitChars 10 digits 0))
    else none
  | _ =>
    if word.all Char.isDigit then some (.number (Nat.ofDigitChars 10 word 0))
    else if isPlainName word then some (ofBareWord (String.ofList word))
    else (Keyword.ofSpelling? word).map .keyword

end Token

/-! ## Cutting a text into lexemes -/

namespace Lexing

/-- A character of words. -/
def isWordChar (c : Char) : Bool :=
  c.isAlphanum || c == '_' || c == '$' || 0x80 ≤ c.toNat

/-- A character of operators. -/
def isOperatorChar (c : Char) : Bool :=
  "+-*/<>=~!@#%^&|`?".toList.contains c

/-- A character between tokens. -/
def isBlank (c : Char) : Bool :=
  c == ' ' || c == '\t' || c == '\n' || c == '\r' || c == '\x0b' || c == '\x0c'

/-- The name up to the closing quote, and what follows the quote. -/
def readQuoted : List Char → Option (List Char × List Char)
  | [] => none
  | '"' :: '"' :: rest => (readQuoted rest).map fun r => ('"' :: r.1, r.2)
  | '"' :: rest => some ([], rest)
  | c :: rest => (readQuoted rest).map fun r => (c :: r.1, r.2)

/-- The first blank or token of a text, and what follows it. -/
def next? : List Char → Option (Option Token × List Char)
  | [] => none
  | c :: rest =>
    if isBlank c then some (none, rest)
    else if c = '"' then
      (readQuoted rest).map fun r => (some (.name (String.ofList r.1)), r.2)
    else if isWordChar c then
      (Token.ofWord? (c :: rest.takeWhile isWordChar)).map fun t =>
        (some t, rest.dropWhile isWordChar)
    else if isOperatorChar c then
      (Symbol.ofSpelling? (c :: rest.takeWhile isOperatorChar)).map fun s =>
        (some (.symbol s), rest.dropWhile isOperatorChar)
    else (Symbol.ofSpelling? [c]).map fun s => (some (.symbol s), rest)

theorem length_dropWhile_le (p : Char → Bool) (text : List Char) :
    (text.dropWhile p).length ≤ text.length :=
  (List.dropWhile_suffix p).length_le

theorem readQuoted_length {text name rest : List Char} (h : readQuoted text = some (name, rest)) :
    rest.length < text.length := by
  fun_induction readQuoted text generalizing name rest with
  | case1 => cases h
  | case2 text ih =>
    obtain ⟨⟨name', rest'⟩, hr, heq⟩ := Option.map_eq_some_iff.mp h
    have hlt : rest'.length < text.length := ih hr
    cases heq
    simp only [List.length_cons]
    omega
  | case3 text _ =>
    cases h
    simp
  | case4 c text _ _ ih =>
    obtain ⟨⟨name', rest'⟩, hr, heq⟩ := Option.map_eq_some_iff.mp h
    have hlt : rest'.length < text.length := ih hr
    cases heq
    simp only [List.length_cons]
    omega

/-- Reading a lexeme leaves less text. -/
theorem next?_length {text : List Char} {token? : Option Token} {rest : List Char}
    (h : next? text = some (token?, rest)) : rest.length < text.length := by
  cases text with
  | nil => cases h
  | cons c text =>
    have hword := length_dropWhile_le isWordChar text
    have hoperator := length_dropWhile_le isOperatorChar text
    rw [next?] at h
    split_ifs at h
    · cases h
      simp
    · obtain ⟨⟨name, rest'⟩, hr, heq⟩ := Option.map_eq_some_iff.mp h
      have hlt : rest'.length < text.length := readQuoted_length hr
      cases heq
      simp only [List.length_cons]
      omega
    all_goals
      obtain ⟨t, -, heq⟩ := Option.map_eq_some_iff.mp h
      cases heq
      simp only [List.length_cons]
      omega

/-- The lexemes of a text. -/
def lexemes? (text : List Char) : Option (List Lexeme) :=
  if text = [] then some []
  else
    match _h : next? text with
    | none => none
    | some (token?, rest) =>
      (lexemes? rest).map (⟨text.take (text.length - rest.length), token?⟩ :: ·)
termination_by text.length
decreasing_by exact next?_length _h

/-- The tokens of a text. -/
def tokens? (text : String) : Option (List Token) :=
  (lexemes? text.toList).map fun lexemes => lexemes.filterMap Lexeme.token?

end Lexing

end SqlSelect
