/-!
# Digits of fixed width

Decimal numbers are written with `Nat.toDigits` and read with `Nat.ofDigitChars`. This module adds
zero padding and hexadecimal digits: `hexValue?_hexDigit` reads a written hexadecimal digit back.
-/

namespace SqlSelect.Text

/-- A number in decimal with zeros in front up to `width` digits; a longer one keeps its digits. -/
def padded (width n : Nat) : List Char :=
  let digits := Nat.toDigits 10 n
  List.replicate (width - digits.length) '0' ++ digits

/-- The hexadecimal digit of `n < 16`, in lower case. -/
def hexDigit (n : Nat) : Char :=
  Nat.digitChar n

/-- The value of a hexadecimal digit of either case. -/
def hexValue? (c : Char) : Option Nat :=
  if '0' ≤ c ∧ c ≤ '9' then some (c.toNat - '0'.toNat)
  else if 'a' ≤ c ∧ c ≤ 'f' then some (c.toNat - 'a'.toNat + 10)
  else if 'A' ≤ c ∧ c ≤ 'F' then some (c.toNat - 'A'.toNat + 10)
  else none

theorem hexValue?_hexDigit {n : Nat} (h : n < 16) : hexValue? (hexDigit n) = some n := by
  have : ∀ m : Fin 16, hexValue? (hexDigit m) = some m.val := by decide
  exact this ⟨n, h⟩

end SqlSelect.Text
