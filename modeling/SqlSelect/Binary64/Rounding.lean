import SqlSelect.Binary64.Basic

/-!
# Rounding to binary floating point

`ofRatio` rounds a ratio to the nearest number, a half to the even significand. Products, quotients
and conversions are the exact result, rounded once.
-/

namespace SqlSelect.Binary64

/-- The number nearest to a ratio, with the given sign. Its last bit is 52 places below the first,
but never below `2 ^ -1074`; from the magnitude of the infinities on, it is an infinity. -/
def ofRatio (negative : Bool) (r : Ratio) : Binary64 :=
  if r.num = 0 then zero negative
  else
    let last := max (r.log2 - 52) (-1074)
    let bits := (last + 1074).toNat * 0x10000000000000 + (r * Ratio.twoPow (-last)).round
    if bits < infinityBits then ofParts negative bits else infinity negative

/-- The number nearest to a natural number. -/
def ofNat (n : Nat) : Binary64 :=
  ofRatio false (Ratio.ofNat n)

/-- The number nearest to an integer. -/
def ofInt (n : Int) : Binary64 :=
  ofRatio (n < 0) (Ratio.ofNat n.natAbs)

/-- The product of two finite nonnegative numbers. -/
def mul (x y : Binary64) : Binary64 :=
  ofRatio false (x.magnitude * y.magnitude)

/-- The quotient of two finite nonnegative numbers; the divisor is not zero. -/
def div (x y : Binary64) : Binary64 :=
  ofRatio false (x.magnitude * ⟨y.magnitude.den, max y.magnitude.num 1, by omega⟩)

/-- The same number with its sign set as given. -/
def withSign (negative : Bool) (x : Binary64) : Binary64 :=
  ofParts negative (x.bits.toNat % 0x8000000000000000)

/-- The number that a 32-bit pattern stands for: eight exponent bits and 23 fraction bits. Every
such number is a 64-bit one, so nothing is rounded. -/
def ofBinary32 (pattern : UInt32) : Binary64 :=
  let bits := pattern.toNat
  let negative := decide (0x80000000 ≤ bits)
  let exponent := bits / 0x800000 % 0x100
  let fraction := bits % 0x800000
  if exponent = 255 then
    if fraction = 0 then infinity negative else quietNaN
  else
    let significand := if exponent = 0 then fraction else 0x800000 + fraction
    ofRatio negative (Ratio.ofNat significand * Ratio.twoPow ((max exponent 1 : Nat) - 150))

end SqlSelect.Binary64
