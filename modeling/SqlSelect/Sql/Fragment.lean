import SqlSelect.Lexeme
import SqlSelect.Sql.Quoting
import SqlSelect.Value.Basic

/-!
# Statement fragments

A fragment is a list of pieces: fixed words and symbols, names, counts and literals. Its text is
fixed by the quoting of names and by the number of values bound before it: each literal becomes a
placeholder with the next number, and its value is bound.
-/

namespace SqlSelect

/-- A piece of a statement. -/
inductive Piece where
  /-- one space -/
  | space
  | keyword (k : Keyword)
  | symbol (s : Symbol)
  /-- a name, written as the quoting says -/
  | name (word : String)
  /-- text that is written as it is -/
  | verbatim (text : String)
  /-- a number of rows -/
  | count (n : Nat)
  /-- a value to bind, written as a placeholder -/
  | literal (v : Value)

/-- The placeholder of a number. -/
def placeholder (n : Nat) : List Char :=
  '$' :: Nat.toDigits 10 n

namespace Piece

/-- The text of a piece behind `bound` bound values. -/
def chars (q : Quoting) (bound : Nat) : Piece → List Char
  | .space => [' ']
  | .keyword k => k.spelling.toList
  | .symbol s => s.spelling.toList
  | .name word => q.nameChars word
  | .verbatim text => text.toList
  | .count n => Nat.toDigits 10 n
  | .literal _ => placeholder (bound + 1)

/-- The value that a piece binds. -/
def literal? : Piece → Option Value
  | .literal v => some v
  | _ => none

end Piece

/-- A part of a statement. -/
abbrev Fragment := List Piece

namespace Fragment

/-- The values that a fragment binds, in the order of their placeholders. -/
def literals (f : Fragment) : List Value :=
  f.filterMap Piece.literal?

/-- The text of a fragment behind `bound` bound values. -/
def chars (q : Quoting) (bound : Nat) : Fragment → List Char
  | [] => []
  | .literal v :: rest => Piece.chars q bound (.literal v) ++ chars q (bound + 1) rest
  | p :: rest => p.chars q bound ++ chars q bound rest

/-- Fragments with another between them. -/
def joined (separator : Fragment) : List Fragment → Fragment
  | [] => []
  | [f] => f
  | f :: rest => f ++ separator ++ joined separator rest

/-- Fragments with commas between them. -/
def commaSeparated (fragments : List Fragment) : Fragment :=
  joined [.symbol .comma, .space] fragments

/-- Fragments with spaces between them. -/
def spaced (fragments : List Fragment) : Fragment :=
  joined [.space] fragments

/-- A fragment in parentheses. -/
def parenthesised (f : Fragment) : Fragment :=
  .symbol .openParen :: (f ++ [.symbol .closeParen])

theorem literals_append (f g : Fragment) : literals (f ++ g) = literals f ++ literals g :=
  List.filterMap_append

theorem chars_cons (q : Quoting) (bound : Nat) (p : Piece) (f : Fragment) :
    chars q bound (p :: f) = p.chars q bound ++ chars q (bound + (literals [p]).length) f := by
  cases p <;> rfl

theorem chars_append (q : Quoting) (bound : Nat) (f g : Fragment) :
    chars q bound (f ++ g) = chars q bound f ++ chars q (bound + f.literals.length) g := by
  induction f generalizing bound with
  | nil => rfl
  | cons p f ih =>
    have h : literals (p :: f) = literals [p] ++ literals f := literals_append [p] f
    rw [List.cons_append, chars_cons, chars_cons, ih, List.append_assoc, h, List.length_append,
      Nat.add_assoc]

end Fragment

/-- Text with the values it binds. -/
structure Statement where
  text : String
  binds : List Value

/-- Write a fragment behind values that are bound already: its text, and all values bound then. -/
def Fragment.write (f : Fragment) (q : Quoting) (binds : List Value) : Statement where
  text := String.ofList (f.chars q binds.length)
  binds := binds ++ f.literals

theorem Fragment.write_append (f g : Fragment) (q : Quoting) (binds : List Value) :
    (f ++ g).write q binds =
      { text := (f.write q binds).text ++ (g.write q (f.write q binds).binds).text
        binds := (g.write q (f.write q binds).binds).binds } := by
  simp only [write, chars_append, literals_append, List.length_append, String.ofList_append,
    List.append_assoc]

end SqlSelect
