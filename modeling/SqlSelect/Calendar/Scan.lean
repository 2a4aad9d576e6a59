import SqlSelect.Text.Blank

/-!
# Reading the fields of calendar texts

A field is a short run of decimal digits, a mark is one fixed character, and both may have blanks in
front of them.
-/

namespace SqlSelect.Calendar

/-- The value of decimal digits. -/
def digitsValue (digits : List Char) : Nat :=
  Nat.ofDigitChars 10 digits 0

/-- The digits in front, at most `limit` of them, and the rest. -/
def spanDigits : Nat → List Char → List Char × List Char
  | 0, text => ([], text)
  | _, [] => ([], [])
  | limit + 1, c :: rest =>
    if c.isDigit then
      let (digits, rest) := spanDigits limit rest
      (c :: digits, rest)
    else ([], c :: rest)

/-- A number of one to `limit` digits. -/
def number? (limit : Nat) (text : List Char) : Option (Nat × List Char) :=
  match spanDigits limit text with
  | ([], _) => none
  | (digits, rest) => some (digitsValue digits, rest)

/-- A number of one or two digits, blanks in front. -/
def field? (text : List Char) : Option (Nat × List Char) :=
  number? 2 (Text.skipBlanks text)

/-- A mark, blanks in front. -/
def mark? (c : Char) (text : List Char) : Option (List Char) :=
  match Text.skipBlanks text with
  | d :: rest => if d = c then some rest else none
  | [] => none

end SqlSelect.Calendar
