/-!
# Nonnegative ratios

Quotients of natural numbers with a positive denominator, kept unreduced. Rounding to binary and to
decimal grids compares them exactly by cross multiplication.
-/

namespace SqlSelect

/-- The ratio `num / den`. -/
structure Ratio where
  num : Nat
  den : Nat
  den_pos : 0 < den

namespace Ratio

/-- A natural number as a ratio. -/
def ofNat (n : Nat) : Ratio := ⟨n, 1, Nat.one_pos⟩

/-- The power `base ^ e` of a positive base, for exponents of either sign. -/
def pow (base : Nat) (base_pos : 0 < base) (e : Int) : Ratio :=
  ⟨Nat.pow base e.toNat, Nat.pow base (-e).toNat, Nat.pow_pos base_pos⟩

/-- A power of two. -/
def twoPow (e : Int) : Ratio := pow 2 Nat.two_pos e

/-- A power of ten. -/
def tenPow (e : Int) : Ratio := pow 10 (Nat.succ_pos 9) e

/-- The product of two ratios. -/
protected def mul (a b : Ratio) : Ratio :=
  ⟨a.num * b.num, a.den * b.den, Nat.mul_pos a.den_pos b.den_pos⟩

instance : Mul Ratio := ⟨Ratio.mul⟩

/-- Whether `a ≤ b`. -/
def le (a b : Ratio) : Bool :=
  a.num * b.den ≤ b.num * a.den

/-- Whether `a < b`. -/
def lt (a b : Ratio) : Bool :=
  a.num * b.den < b.num * a.den

/-- The largest natural number not above the ratio. -/
def floor (a : Ratio) : Nat :=
  a.num / a.den

/-- The nearest natural number; a half goes to the even neighbour. -/
def round (a : Ratio) : Nat :=
  let below := a.num / a.den
  let twice := 2 * (a.num % a.den)
  if twice < a.den then below
  else if a.den < twice then below + 1
  else below + below % 2

/-- The `e` with `2 ^ e ≤ a < 2 ^ (e + 1)`, for a positive ratio. -/
def log2 (a : Ratio) : Int :=
  let e : Int := (a.num.log2 : Int) - (a.den.log2 : Int)
  if a.lt (twoPow e) then e - 1 else e

/-- The `e` with `10 ^ e ≤ a < 10 ^ (e + 1)`, for a positive ratio. From one up, `a` has the digits
of its floor; below one, `10 ^ j * a` first reaches one when `10 ^ j` passes `(den - 1) / num`. -/
def log10 (a : Ratio) : Int :=
  if a.den ≤ a.num then ((Nat.toDigits 10 a.floor).length : Int) - 1
  else -((Nat.toDigits 10 ((a.den - 1) / a.num)).length : Int)

theorem num_mul (a b : Ratio) : (a * b).num = a.num * b.num := rfl

theorem den_mul (a b : Ratio) : (a * b).den = a.den * b.den := rfl

end Ratio

end SqlSelect
