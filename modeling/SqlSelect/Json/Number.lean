import SqlSelect.Json.Token
import SqlSelect.Binary64.Rounding

/-!
# JSON numbers

A numeral without point and exponent is an integer if it fits 64 bits, signed or unsigned. Every
other numeral is a floating-point number: its digits enter a 64-bit significand as long as they fit,
and the significand is then scaled by powers of ten up to `10 ^ 308`, rounding each time. A numeral
beyond the finite numbers has no value; one too small is zero. The sign of `-0` makes it a float.
-/

namespace SqlSelect.Json

/-- An integer of 64 bits, signed or unsigned, or a finite floating-point number. -/
inductive Number where
  | int (n : Int) (range : -0x8000000000000000 ≤ n ∧ n < 0x10000000000000000)
  | float (x : Binary64) (finite : x.isFinite)

namespace Number

/-- Equality; an integer never equals a float. -/
protected def beq : Number → Number → Bool
  | .int m _, .int n _ => m == n
  | .float x _, .float y _ => x == y
  | _, _ => false

instance : BEq Number := ⟨Number.beq⟩

/-- An integer in range. -/
def ofInt? (n : Int) : Option Number :=
  if h : -0x8000000000000000 ≤ n ∧ n < 0x10000000000000000 then some (.int n h) else none

/-- A finite number. -/
def ofBinary64? (x : Binary64) : Option Number :=
  if h : x.isFinite then some (.float x h) else none

/-- The nearest floating-point number. -/
def toBinary64 : Number → Binary64
  | .int n _ => Binary64.ofInt n
  | .float x _ => x

/-- The value of one decimal digit. -/
def digitValue (c : Char) : Nat :=
  c.toNat - '0'.toNat

/-- Append digits to a significand while it fits 64 bits; also the digits left over. -/
def absorb (significand : Nat) : List Char → Nat × List Char
  | [] => (significand, [])
  | c :: rest =>
    let next := 10 * significand + digitValue c
    if next < 0x10000000000000000 then absorb next rest else (significand, c :: rest)

/-- The power of ten as a floating-point number. -/
def powerOfTen (k : Nat) : Binary64 :=
  Binary64.ofNat (Nat.pow 10 k)

/-- A nonnegative number times a power of ten, in steps of at most `10 ^ 308`. Zero stays zero. -/
def scaleBy (x : Binary64) (e : Int) : Binary64 :=
  if x.isZero then x
  else if 308 < e then Binary64.infinity false
  else if 0 ≤ e then x.mul (powerOfTen e.toNat)
  else if -308 ≤ e then x.div (powerOfTen (-e).toNat)
  else scaleBy (x.div (powerOfTen 308)) (e + 308)
termination_by (-e).toNat

/-- The exponent that a numeral writes. -/
def writtenExponent : Option (Bool × List Char) → Int
  | none => 0
  | some (negative, digits) =>
    let n : Int := Nat.ofDigitChars 10 digits 0
    if negative then -n else n

/-- The floating-point number of a numeral, possibly an infinity. Digits of the whole part that do
not fit the significand count as zeros, those of the fraction are dropped. -/
def floatOfNumeral (n : Numeral) : Binary64 :=
  let (whole, dropped) := absorb 0 n.whole
  let (significand, unused) := absorb whole n.fraction
  let exponent := (dropped.length : Int) - ((n.fraction.length : Int) - (unused.length : Int))
  (scaleBy (Binary64.ofNat significand) (exponent + writtenExponent n.exponent)).withSign n.negative

/-- Whether a numeral has neither a point nor an exponent. -/
def isWhole (n : Numeral) : Bool :=
  n.fraction.isEmpty && n.exponent.isNone

/-- The number of a numeral. -/
def ofNumeral? (n : Numeral) : Option Number :=
  let whole := Nat.ofDigitChars 10 n.whole 0
  if isWhole n && whole < 0x10000000000000000 then
    if n.negative then
      if 0 < whole ∧ whole ≤ 0x8000000000000000 then ofInt? (-(whole : Int))
      else ofBinary64? ((Binary64.ofNat whole).withSign true)
    else ofInt? whole
  else ofBinary64? (floatOfNumeral n)

end Number

end SqlSelect.Json
