import SqlSelect.Decimal.Shortest

/-!
# How a floating-point number is spelled

A layout says when a decimal is written positionally, whether a whole number keeps a `.0`, and how
ties between two shortest decimals go. `plain` is the layout for people, `json` the one for JSON.
-/

namespace SqlSelect.Decimal

/-- The choices a number format makes. `positional` is asked about the power of ten of the first
digit. -/
structure Layout where
  tie : Tie
  positional : Int → Bool
  keepsPoint : Bool

/-- Never an exponent, no `.0`, and a tie goes to the larger decimal. -/
def Layout.plain : Layout where
  tie := .up
  positional _ := true
  keepsPoint := false

/-- Positional from `0.00001` to below `10 ^ 16`, always a point or an exponent, and a tie goes to
the even digit. -/
def Layout.json : Layout where
  tie := .even
  positional e := -5 ≤ e && e < 16
  keepsPoint := true

/-- The significant digits of a decimal, without the zeros at its end. -/
def significant (d : Decimal) : List Char :=
  ((Nat.toDigits 10 d.coefficient).reverse.dropWhile (· == '0')).reverse

/-- The power of ten of the first digit. -/
def leading (d : Decimal) : Int :=
  d.exponent + (Nat.toDigits 10 d.coefficient).length - 1

/-- Digits with a point after the first `e + 1` of them; zeros fill the places between. -/
def positionalChars (keepsPoint : Bool) (digits : List Char) (e : Int) : List Char :=
  if e < 0 then
    '0' :: '.' :: (List.replicate (-e - 1).toNat '0' ++ digits)
  else
    let whole := e.toNat + 1
    let front := digits.take whole ++ List.replicate (whole - digits.length) '0'
    match digits.drop whole with
    | [] => if keepsPoint then front ++ ['.', '0'] else front
    | rest => front ++ '.' :: rest

/-- One digit, the others after a point, and the power of ten with its sign. -/
def scientificChars (digits : List Char) (e : Int) : List Char :=
  let fraction := match digits.drop 1 with
    | [] => []
    | rest => '.' :: rest
  let sign := if e < 0 then '-' else '+'
  digits.take 1 ++ fraction ++ 'e' :: sign :: Nat.toDigits 10 e.natAbs

/-- A decimal in a layout. -/
def Layout.write (l : Layout) (d : Decimal) : List Char :=
  if l.positional d.leading then positionalChars l.keepsPoint d.significant d.leading
  else scientificChars d.significant d.leading

/-- A finite number in a layout, by its shortest decimal. The sign of a zero is written. -/
def Layout.writeFinite (l : Layout) (x : Binary64) : List Char :=
  let unsigned :=
    if x.isZero then (if l.keepsPoint then ['0', '.', '0'] else ['0'])
    else l.write (shortest l.tie x)
  if x.negative then '-' :: unsigned else unsigned

/-- Any number in the plain layout. -/
def plainChars (x : Binary64) : List Char :=
  if x.isFinite then Layout.plain.writeFinite x
  else if x.isNaN then ['N', 'a', 'N']
  else if x.negative then ['-', 'i', 'n', 'f']
  else ['i', 'n', 'f']

example : Layout.plain.write ⟨15, -1⟩ = ['1', '.', '5'] := by decide

example : Layout.json.write ⟨1, 16⟩ = ['1', 'e', '+', '1', '6'] := by decide

example : Layout.json.write ⟨1, -5⟩ = ['0', '.', '0', '0', '0', '0', '1'] := by decide

end SqlSelect.Decimal
