import SqlSelect.Ratio

/-!
# Binary floating-point numbers of 64 bits

A number is its bit pattern: from the top the sign, eleven exponent bits and 52 fraction bits, so
that `0x10000000000000` is the first exponent bit. A finite number has the magnitude
`significand · 2 ^ scale`. Two numbers are equal when their canonical forms are: all NaNs are one,
and so are both zeros.
-/

namespace SqlSelect

/-- A 64-bit binary floating-point number. -/
structure Binary64 where
  bits : UInt64
deriving DecidableEq

namespace Binary64

/-- Whether the sign bit is set. -/
def negative (x : Binary64) : Bool :=
  0x8000000000000000 ≤ x.bits.toNat

/-- The biased exponent, below 2048. -/
def exponentField (x : Binary64) : Nat :=
  x.bits.toNat / 0x10000000000000 % 0x800

/-- The stored part of the significand. -/
def fraction (x : Binary64) : Nat :=
  x.bits.toNat % 0x10000000000000

/-- Whether the number is neither an infinity nor a NaN. -/
def isFinite (x : Binary64) : Bool :=
  x.exponentField != 2047

/-- Whether the pattern is no number at all. -/
def isNaN (x : Binary64) : Bool :=
  x.exponentField == 2047 && x.fraction != 0

/-- Whether the number is one of the two zeros. -/
def isZero (x : Binary64) : Bool :=
  x.exponentField == 0 && x.fraction == 0

/-- The significand, with the leading one that normal numbers leave out. -/
def significand (x : Binary64) : Nat :=
  if x.exponentField = 0 then x.fraction else 0x10000000000000 + x.fraction

/-- The exponent of the significand's last bit. -/
def scale (x : Binary64) : Int :=
  (max x.exponentField 1 : Nat) - 1075

/-- The absolute value of a finite number. -/
def magnitude (x : Binary64) : Ratio :=
  Ratio.ofNat x.significand * Ratio.twoPow x.scale

/-- The number with a given sign and the bits below it. -/
def ofParts (negative : Bool) (magnitudeBits : Nat) : Binary64 :=
  ⟨UInt64.ofNat ((if negative then 0x8000000000000000 else 0) + magnitudeBits)⟩

/-- A zero of either sign. -/
def zero (negative : Bool) : Binary64 :=
  ofParts negative 0

/-- The bits of the infinities below the sign: the least pattern that is not finite. -/
def infinityBits : Nat :=
  2047 * 0x10000000000000

/-- An infinity of either sign. -/
def infinity (negative : Bool) : Binary64 :=
  ofParts negative infinityBits

/-- The NaN that stands for all. -/
def quietNaN : Binary64 :=
  ofParts false (infinityBits + 0x8000000000000)

/-- One pattern for all NaNs and one for both zeros; every other number is its own. -/
def canonical (x : Binary64) : Binary64 :=
  if x.isNaN then quietNaN else if x.isZero then zero false else x

/-- Equality of numbers: NaN equals NaN, and the zeros are equal. -/
instance : BEq Binary64 := ⟨fun x y => decide (x.canonical = y.canonical)⟩

theorem beq_iff_canonical (x y : Binary64) : (x == y) = true ↔ x.canonical = y.canonical :=
  decide_eq_true_iff

theorem isFinite_zero (negative : Bool) : (zero negative).isFinite := by
  cases negative <;> decide

end Binary64

end SqlSelect
