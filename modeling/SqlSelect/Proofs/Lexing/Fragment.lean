import SqlSelect.Proofs.Lexing.Word
import SqlSelect.Proofs.Binding.Literals
import Mathlib.Data.List.Chain

/-!
# Lexemes of fragments

Written piece by piece as tokens, a fragment gives one lexeme for each of its pieces. Its text is
cut into exactly these lexemes (`Fragment.lexemes?_chars`) if no two of its pieces that are words,
and no two that are operators, stand side by side, and if what it writes as it is are plain names.
-/

namespace SqlSelect

open Lexing

/-! ## Writing tokens instead of text -/

namespace Piece

/-- The token of a piece behind `bound` bound values. A space is no token. A name is one name,
whatever its characters are, and a literal is one parameter. -/
def token? (bound : Nat) : Piece → Option Token
  | .space => none
  | .keyword k => some (.keyword k)
  | .symbol s => some (.symbol s)
  | .name word => some (.name word)
  | .verbatim text => some (.ofBareWord text)
  | .count n => some (.number n)
  | .literal _ => some (.parameter (bound + 1))

/-- Whether a piece is written as a word or as a name in quotes. -/
def isWordlike : Piece → Bool
  | .space => false
  | .symbol _ => false
  | _ => true

/-- Whether a piece is written with operator characters. -/
def isOperator : Piece → Bool
  | .symbol s => s.isOperator
  | _ => false

/-- Whether a piece keeps its neighbours apart: a space or a punctuation mark. -/
def isSeparator (p : Piece) : Bool := !p.isWordlike && !p.isOperator

/-- Whether two pieces side by side would run into one token. -/
def Clings (p p' : Piece) : Prop :=
  (p.isWordlike = true ∧ p'.isWordlike = true) ∨ (p.isOperator = true ∧ p'.isOperator = true)

/-- Whether text that is written as it is is a plain name. -/
def IsPlain : Piece → Prop
  | .verbatim text => isPlainName text.toList = true
  | _ => True

end Piece

namespace Fragment

/-- The tokens of a fragment behind `bound` bound values. -/
def tokens (bound : Nat) : Fragment → List Token
  | [] => []
  | p :: rest => (p.token? bound).toList ++ tokens (bound + p.literal?.toList.length) rest

/-- The lexemes of a fragment behind `bound` bound values, one for each piece. -/
def lexemes (q : Quoting) (bound : Nat) : Fragment → List Lexeme
  | [] => []
  | p :: rest =>
    ⟨p.chars q bound, p.token? bound⟩ :: lexemes q (bound + p.literal?.toList.length) rest

theorem lexemes_append (q : Quoting) (bound : Nat) (f g : Fragment) :
    lexemes q bound (f ++ g) =
      lexemes q bound f ++ lexemes q (bound + f.literals.length) g := by
  induction f generalizing bound with
  | nil => rfl
  | cons p f ih =>
    rw [List.cons_append, lexemes, lexemes, ih, literals_cons, List.length_append, Nat.add_assoc,
      List.cons_append]

/-- The lexemes of a fragment are tokens of a fragment, besides the spaces. -/
theorem filterMap_token?_lexemes (q : Quoting) (bound : Nat) (f : Fragment) :
    (lexemes q bound f).filterMap Lexeme.token? = tokens bound f := by
  induction f generalizing bound with
  | nil => rfl
  | cons p f ih =>
    rw [lexemes, tokens, List.filterMap_cons, ih]
    cases p.token? bound <;> rfl

/-- No two neighbours run into one token. -/
def Loose (f : Fragment) : Prop := f.IsChain fun p p' => ¬ p.Clings p'

/-- What is written as it is, is a plain name. -/
def IsPlain (f : Fragment) : Prop := ∀ p ∈ f, p.IsPlain

end Fragment

/-! ## Reading a piece back -/

/-- A quoting that reads back: names that need quotes have them. -/
theorem Quoting.isBareName_of_not_quotes {q : Quoting} (hq : q ≠ .never) {name : String}
    (h : q.quotes name = false) : isBareName name = true := by
  cases q with
  | whenNeeded => simpa [Quoting.quotes] using h
  | always => cases h
  | never => exact absurd rfl hq

theorem Token.ofBareWord_of_isBareName {name : String} (h : isBareName name = true) :
    Token.ofBareWord name = .name name := by
  obtain ⟨-, hreserved⟩ := Bool.and_eq_true_iff.mp h
  rw [Token.ofBareWord, if_neg (by simpa using hreserved)]

namespace Lexing

theorem isWordChar_of_mem_digits {n : Nat} : ∀ c ∈ Nat.toDigits 10 n, isWordChar c = true :=
  fun _ hc => isWordChar_of_isDigit (Nat.isDigit_of_mem_toDigits (by decide) (by decide) hc)

theorem isWordChar_of_mem_placeholder {n : Nat} : ∀ c ∈ placeholder n, isWordChar c = true :=
  List.forall_mem_cons.mpr ⟨by decide, isWordChar_of_mem_digits⟩

theorem isWordChar_of_mem_keyword (k : Keyword) :
    ∀ c ∈ k.spelling.toList, isWordChar c = true := by
  have hall : k.spelling.toList.all isWordChar = true := by cases k <;> decide
  exact List.all_eq_true.mp hall

theorem ne_nil_of_isPlainName {word : List Char} (h : isPlainName word = true) : word ≠ [] := by
  rintro rfl
  cases h

theorem keyword_ne_nil (k : Keyword) : k.spelling.toList ≠ [] := by
  cases k <;> decide

theorem symbol_ne_nil (s : Symbol) : s.spelling.toList ≠ [] := by
  cases s <;> decide

theorem ofSpelling?_symbol (s : Symbol) : Symbol.ofSpelling? s.spelling.toList = some s := by
  cases s <;> decide

theorem isOperatorChar_of_mem_symbol {s : Symbol} (h : s.isOperator = true) :
    ∀ c ∈ s.spelling.toList, isOperatorChar c = true := by
  have hall : s.isOperator = true → s.spelling.toList.all isOperatorChar = true := by
    cases s <;> decide
  exact List.all_eq_true.mp (hall h)

/-- A symbol is read back if it is a punctuation mark, or if what follows cannot continue it. -/
theorem next?_symbol (s : Symbol) {rest : List Char}
    (hrest : s.isOperator = true → ∀ c ∈ rest.head?, isOperatorChar c = false) :
    next? (s.spelling.toList ++ rest) = some (some (.symbol s), rest) := by
  by_cases hs : s.isOperator = true
  · exact next?_operator (symbol_ne_nil s) (isOperatorChar_of_mem_symbol hs) (ofSpelling?_symbol s)
      (hrest hs)
  · cases s with
    | comma | dot | openParen | closeParen => rfl
    | _ => exact absurd rfl hs

end Lexing

namespace Piece

/-- Every piece is read back from its text, if what follows does not cling to it. -/
theorem next?_chars {q : Quoting} (hq : q ≠ .never) (bound : Nat) {p : Piece} (hp : p.IsPlain)
    {rest : List Char}
    (hword : p.isWordlike = true → ∀ c ∈ rest.head?, isWordChar c = false ∧ c ≠ '"')
    (hoperator : p.isOperator = true → ∀ c ∈ rest.head?, isOperatorChar c = false) :
    next? (p.chars q bound ++ rest) = some (p.token? bound, rest) := by
  cases p with
  | space => exact next?_space rest
  | keyword k =>
    exact next?_word (keyword_ne_nil k) (isWordChar_of_mem_keyword k) (Token.ofWord?_keyword k)
      fun c hc => (hword rfl c hc).1
  | symbol s => exact next?_symbol s hoperator
  | name word =>
    rw [chars, Quoting.nameChars]
    split_ifs with hquotes
    · exact next?_quotedName word fun c hc => (hword rfl c hc).2
    · have hbare := q.isBareName_of_not_quotes hq (Bool.eq_false_iff.mpr hquotes)
      have hplain := (Bool.and_eq_true_iff.mp hbare).1
      rw [token?, ← Token.ofBareWord_of_isBareName hbare]
      exact next?_word (ne_nil_of_isPlainName hplain) (isWordChar_of_mem_plainName hplain)
        (Token.ofWord?_plainName hplain) fun c hc => (hword rfl c hc).1
  | verbatim text =>
    exact next?_word (ne_nil_of_isPlainName hp) (isWordChar_of_mem_plainName hp)
      (Token.ofWord?_plainName hp) fun c hc => (hword rfl c hc).1
  | count n =>
    exact next?_word Nat.toDigits_ne_nil isWordChar_of_mem_digits (Token.ofWord?_digits n)
      fun c hc => (hword rfl c hc).1
  | literal v =>
    exact next?_word (List.cons_ne_nil _ _) isWordChar_of_mem_placeholder
      (Token.ofWord?_placeholder _) fun c hc => (hword rfl c hc).1

/-- A word starts with a word character or with a quote. -/
theorem head_chars_of_isWordlike {q : Quoting} (hq : q ≠ .never) (bound : Nat) {p : Piece}
    (hp : p.IsPlain) (h : p.isWordlike = true) :
    ∃ c cs, p.chars q bound = c :: cs ∧ (isWordChar c = true ∨ c = '"') := by
  have hrun : ∀ run : List Char, run ≠ [] → (∀ c ∈ run, isWordChar c = true) →
      ∃ c cs, run = c :: cs ∧ (isWordChar c = true ∨ c = '"') := by
    intro run hnil hall
    obtain ⟨c, cs, rfl⟩ := List.exists_cons_of_ne_nil hnil
    exact ⟨c, cs, rfl, .inl (hall c List.mem_cons_self)⟩
  cases p with
  | space => cases h
  | keyword k =>
    exact hrun _ (keyword_ne_nil k) (isWordChar_of_mem_keyword k)
  | symbol s => cases h
  | name word =>
    rw [chars, Quoting.nameChars]
    split_ifs with hquotes
    · exact ⟨'"', _, rfl, .inr rfl⟩
    · have hbare := q.isBareName_of_not_quotes hq (Bool.eq_false_iff.mpr hquotes)
      have hplain := (Bool.and_eq_true_iff.mp hbare).1
      exact hrun _ (ne_nil_of_isPlainName hplain) (isWordChar_of_mem_plainName hplain)
  | verbatim text => exact hrun _ (ne_nil_of_isPlainName hp) (isWordChar_of_mem_plainName hp)
  | count n => exact hrun _ Nat.toDigits_ne_nil isWordChar_of_mem_digits
  | literal v => exact hrun _ (List.cons_ne_nil _ _) isWordChar_of_mem_placeholder

/-- What is no word does not start as one. -/
theorem head_chars_of_not_isWordlike (q : Quoting) (bound : Nat) {p : Piece}
    (h : p.isWordlike = false) :
    ∃ c cs, p.chars q bound = c :: cs ∧ isWordChar c = false ∧ c ≠ '"' ∧
      (p.isOperator = false → isOperatorChar c = false) := by
  cases p with
  | space => exact ⟨' ', [], rfl, by decide⟩
  | symbol s => cases s <;> exact ⟨_, _, rfl, by decide⟩
  | _ => cases h

/-- Where two neighbours do not cling, the second does not continue the first. -/
theorem head_chars_of_not_clings {q : Quoting} (hq : q ≠ .never) (bound : Nat) {p p' : Piece}
    (hp' : p'.IsPlain) (h : ¬ p.Clings p') :
    ∃ c cs, p'.chars q bound = c :: cs ∧
      (p.isWordlike = true → isWordChar c = false ∧ c ≠ '"') ∧
      (p.isOperator = true → isOperatorChar c = false) := by
  cases hword : p'.isWordlike with
  | true =>
    have hp : p.isWordlike = true → False := fun hp => h (.inl ⟨hp, hword⟩)
    obtain ⟨c, cs, hchars, hc⟩ := head_chars_of_isWordlike hq bound hp' hword
    refine ⟨c, cs, hchars, fun hw => absurd hw hp, fun _ => ?_⟩
    rcases hc with hc | rfl
    · exact isOperatorChar_eq_false_of_isWordChar hc
    · decide
  | false =>
    obtain ⟨c, cs, hchars, hwordChar, hquote, hoperator⟩ :=
      head_chars_of_not_isWordlike q bound hword
    refine ⟨c, cs, hchars, fun _ => ⟨hwordChar, hquote⟩, fun hp => hoperator ?_⟩
    exact Bool.eq_false_iff.mpr fun hp' => h (.inr ⟨hp, hp'⟩)

theorem chars_ne_nil {q : Quoting} (hq : q ≠ .never) (bound : Nat) {p : Piece} (hp : p.IsPlain) :
    p.chars q bound ≠ [] := by
  obtain ⟨c, cs, hchars, -⟩ :=
    head_chars_of_not_clings (p := .space) hq bound hp (by simp [Clings, isWordlike, isOperator])
  rw [hchars]
  exact List.cons_ne_nil c cs

end Piece

/-! ## Reading a fragment back -/

/-- One lexeme is cut off the text, and the rest is cut by itself. -/
theorem Lexing.lexemes?_append {run rest : List Char} {token? : Option Token} (hnil : run ≠ [])
    (h : next? (run ++ rest) = some (token?, rest)) :
    lexemes? (run ++ rest) = (lexemes? rest).map (⟨run, token?⟩ :: ·) := by
  rw [lexemes?, if_neg (List.append_ne_nil_of_left_ne_nil hnil rest)]
  -- the source of a lexeme is what the rest is shorter by
  split
  · rename_i hnone
    rw [h] at hnone
    cases hnone
  · rename_i token?' rest' hsome
    rw [h] at hsome
    cases hsome
    rw [List.length_append, Nat.add_sub_cancel, List.take_left' rfl]

/-- The text of a loose fragment is cut into the lexemes of its pieces. -/
theorem Fragment.lexemes?_chars {q : Quoting} (hq : q ≠ .never) (bound : Nat) {f : Fragment}
    (hloose : f.Loose) (hplain : f.IsPlain) :
    lexemes? (f.chars q bound) = some (f.lexemes q bound) := by
  induction f generalizing bound with
  | nil =>
    rw [chars, lexemes?, if_pos rfl]
    rfl
  | cons p f ih =>
    have hp : p.IsPlain := hplain p List.mem_cons_self
    have hf : Fragment.IsPlain f := fun p' hp' => hplain p' (List.mem_cons_of_mem p hp')
    have hcount : (literals [p]).length = p.literal?.toList.length := by simp
    have hnext : next? (p.chars q bound ++ chars q (bound + (literals [p]).length) f) =
        some (p.token? bound, chars q (bound + (literals [p]).length) f) := by
      cases f with
      | nil =>
      exact p.next?_chars hq bound hp (fun _ c hc => by cases hc) (fun _ c hc => by cases hc)
      | cons p' f =>
        -- the text behind the piece starts with the first character of its neighbour
        obtain ⟨c, cs, hchars, hword, hoperator⟩ :=
          Piece.head_chars_of_not_clings hq (bound + (literals [p]).length)
            (hf p' List.mem_cons_self) (List.isChain_cons_cons.mp hloose).1
        refine p.next?_chars hq bound hp (fun h d hd => ?_) (fun h d hd => ?_)
        · rw [chars_cons, hchars] at hd
          cases hd
          exact hword h
        · rw [chars_cons, hchars] at hd
          cases hd
          exact hoperator h
    rw [chars_cons, lexemes?_append (Piece.chars_ne_nil hq bound hp) hnext,
      ih _ hloose.of_cons hf, Option.map_some, lexemes, hcount]

/-- The text of a loose fragment has the tokens of the fragment, whatever its names are and however
they are quoted. -/
theorem Fragment.tokens?_write {q : Quoting} (hq : q ≠ .never) {f : Fragment} (hloose : f.Loose)
    (hplain : f.IsPlain) (binds : List Value) :
    tokens? (f.write q binds).text = some (f.tokens binds.length) := by
  rw [tokens?, Fragment.write, String.toList_ofList, lexemes?_chars hq _ hloose hplain,
    Option.map_some, filterMap_token?_lexemes]

end SqlSelect
