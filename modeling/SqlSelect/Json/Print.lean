import SqlSelect.Json.Basic
import SqlSelect.Decimal.Layout

/-!
# JSON text of values

The compact form: no blanks, members in the order of the value, and in strings only quotes,
backslashes and control characters escaped.
-/

namespace SqlSelect.Json

/-- A character inside a string literal. -/
def escape (c : Char) : List Char :=
  match c with
  | '"' => ['\\', '"']
  | '\\' => ['\\', '\\']
  | '\x08' => ['\\', 'b']
  | '\x0c' => ['\\', 'f']
  | '\n' => ['\\', 'n']
  | '\r' => ['\\', 'r']
  | '\t' => ['\\', 't']
  | c =>
    if c.toNat < 0x20 then
      ['\\', 'u', '0', '0', Text.hexDigit (c.toNat / 16), Text.hexDigit (c.toNat % 16)]
    else [c]

/-- A string literal. -/
def stringChars (s : String) : List Char :=
  '"' :: (s.toList.flatMap escape ++ ['"'])

/-- An integer in decimal. -/
def intChars (n : Int) : List Char :=
  if n < 0 then '-' :: Nat.toDigits 10 n.natAbs else Nat.toDigits 10 n.natAbs

/-- A number: integers in decimal, floats in the JSON layout. -/
def Number.chars : Number → List Char
  | .int n _ => intChars n
  | .float x _ => Decimal.Layout.json.writeFinite x

mutual

/-- The compact text of a value. -/
def chars : Json → List Char
  | .null => ['n', 'u', 'l', 'l']
  | .bool true => ['t', 'r', 'u', 'e']
  | .bool false => ['f', 'a', 'l', 's', 'e']
  | .number n => n.chars
  | .string s => stringChars s
  | .array items => '[' :: (itemChars items ++ [']'])
  | .object members => '{' :: (memberChars members ++ ['}'])

/-- The items of an array with commas between them. -/
def itemChars : List Json → List Char
  | [] => []
  | [x] => x.chars
  | x :: rest => x.chars ++ ',' :: itemChars rest

/-- The members of an object with commas between them. -/
def memberChars : List (String × Json) → List Char
  | [] => []
  | [(key, x)] => stringChars key ++ ':' :: x.chars
  | (key, x) :: rest => stringChars key ++ ':' :: (x.chars ++ ',' :: memberChars rest)

end

/-- The compact text of a value as a string. -/
def text (x : Json) : String :=
  String.ofList x.chars

end SqlSelect.Json
