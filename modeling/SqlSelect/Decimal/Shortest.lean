import SqlSelect.Binary64.Basic

/-!
# The shortest decimal that reads back

A finite nonzero number is surrounded by the interval of reals that round to it. `shortest` gives
the decimal with the fewest significant digits in that interval, and of those the nearest; an
exact tie between two goes as the caller says.
-/

namespace SqlSelect

/-- The decimal `coefficient · 10 ^ exponent`. -/
structure Decimal where
  coefficient : Nat
  exponent : Int
deriving DecidableEq

namespace Decimal

/-- Which of two equally near decimals is taken. -/
inductive Tie where
  /-- the larger one -/
  | up
  /-- the one with the even last digit -/
  | even
deriving DecidableEq

/-- The value of a decimal. -/
def value (d : Decimal) : Ratio :=
  Ratio.ofNat d.coefficient * Ratio.tenPow d.exponent

/-- The reals that round to a number: from `low` to `high`, with both ends or without. -/
structure Interval where
  low : Ratio
  high : Ratio
  closed : Bool

/-- Membership in an interval. -/
def Interval.contains (i : Interval) (r : Ratio) : Bool :=
  if i.closed then i.low.le r && r.le i.high else i.low.lt r && r.lt i.high

/-- The rounding interval of a finite nonzero number. It reaches half way to the neighbours; the
lower one is nearer at a power of two, unless the number is among the smallest. The ends round to
the number when its significand is even. -/
def Interval.around (x : Binary64) : Interval :=
  let quarter := Ratio.twoPow (x.scale - 2)
  let below := if x.significand = 0x10000000000000 ∧ 1 < x.exponentField then 1 else 2
  { low := Ratio.ofNat (4 * x.significand - below) * quarter
    high := Ratio.ofNat (4 * x.significand + 2) * quarter
    closed := x.significand % 2 = 0 }

/-- The nearer of the two multiples of `10 ^ exponent` around a ratio, the lower of which has
coefficient `below`. -/
def nearer (tie : Tie) (r : Ratio) (exponent : Int) (below : Nat) : Decimal :=
  let middle : Ratio := (⟨2 * below + 1, exponent⟩ : Decimal).value
  let twice := Ratio.ofNat 2 * r
  if twice.lt middle then ⟨below, exponent⟩
  else if middle.lt twice then ⟨below + 1, exponent⟩
  else match tie with
    | .up => ⟨below + 1, exponent⟩
    | .even => ⟨below + below % 2, exponent⟩

/-- The nearest multiple of `10 ^ exponent` that is in the interval: one of the two around the
ratio. -/
def onGrid? (tie : Tie) (i : Interval) (r : Ratio) (exponent : Int) : Option Decimal :=
  let below := (r * Ratio.tenPow (-exponent)).floor
  match i.contains (⟨below, exponent⟩ : Decimal).value,
      i.contains (⟨below + 1, exponent⟩ : Decimal).value with
  | true, true => some (nearer tie r exponent below)
  | true, false => some ⟨below, exponent⟩
  | false, true => some ⟨below + 1, exponent⟩
  | false, false => none

/-- The first hit on the grids from `10 ^ exponent` down, each ten times finer than the one before
it; after `more` misses, the nearest point of the last grid. -/
def search (tie : Tie) (i : Interval) (r : Ratio) (exponent : Int) : Nat → Decimal
  | 0 => nearer tie r exponent (r * Ratio.tenPow (-exponent)).floor
  | more + 1 =>
    match onGrid? tie i r exponent with
    | some d => d
    | none => search tie i r (exponent - 1) more

/-- The shortest decimal that reads back as the given finite nonzero number, up to its sign. Every
number has one of at most 17 digits. -/
def shortest (tie : Tie) (x : Binary64) : Decimal :=
  search tie (Interval.around x) x.magnitude x.magnitude.log10 16

end Decimal

end SqlSelect
