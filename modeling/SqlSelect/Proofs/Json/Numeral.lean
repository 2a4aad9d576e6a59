import SqlSelect.Json.Print
import SqlSelect.Json.Number
import SqlSelect.Proofs.Text.Digits

/-!
# Numerals

A numeral is written by its parts: sign, whole digits, a point with a fraction, and an exponent with
a sign. If its digits are proper, scanning its written form gives the numeral back, whatever follows
that does not continue it. The numeral of an integer stands for this integer.
-/

namespace SqlSelect.Json

namespace Numeral

/-- The written form of a fraction; a missing one has no point. -/
def fractionChars (digits : List Char) : List Char :=
  if digits = [] then [] else '.' :: digits

/-- The written form of an exponent, whose sign is always written. -/
def exponentChars : Option (Bool × List Char) → List Char
  | none => []
  | some (negative, digits) => 'e' :: (if negative then '-' else '+') :: digits

/-- The written form of a numeral. -/
def chars (n : Numeral) : List Char :=
  let unsigned := n.whole ++ (fractionChars n.fraction ++ exponentChars n.exponent)
  if n.negative then '-' :: unsigned else unsigned

/-- A numeral as the grammar has it: digits in each part, and no zero in front of others. -/
structure Proper (n : Numeral) : Prop where
  whole_ne_nil : n.whole ≠ []
  whole_digits : ∀ c ∈ n.whole, c.isDigit = true
  whole_head : n.whole.head? = some '0' → n.whole = ['0']
  fraction_digits : ∀ c ∈ n.fraction, c.isDigit = true
  exponent_digits : ∀ e ∈ n.exponent, e.2 ≠ [] ∧ ∀ c ∈ e.2, c.isDigit = true

/-- A character that continues a numeral. -/
def continues (c : Char) : Bool := c.isDigit || c == '.' || c == 'e' || c == 'E'

/-- What follows does not continue a numeral. -/
def Ends (rest : List Char) : Prop := ∀ c ∈ rest.head?, continues c = false

theorem ends_nil : Ends [] := by
  rintro c hc
  cases hc

theorem ends_cons {c : Char} (h : continues c = false) (rest : List Char) : Ends (c :: rest) := by
  rintro d hd
  cases hd
  exact h

/-! ## Scanning the parts -/

theorem scanDigits?_append {digits rest : List Char} (hnil : digits ≠ [])
    (hdigits : ∀ c ∈ digits, c.isDigit = true) (hrest : ∀ c ∈ rest.head?, c.isDigit = false) :
    scanDigits? (digits ++ rest) = some (digits, rest) := by
  rw [scanDigits?, Text.takeWhile_append_stop hdigits hrest,
    Text.dropWhile_append_stop hdigits hrest]
  split
  · exact absurd rfl hnil
  · rfl

theorem scanWhole?_append {n : Numeral} (h : n.Proper) {rest : List Char}
    (hrest : ∀ c ∈ rest.head?, c.isDigit = false) :
    scanWhole? (n.whole ++ rest) = some (n.whole, rest) := by
  by_cases hzero : n.whole.head? = some '0'
  · rw [h.whole_head hzero]
    rfl
  · rw [scanWhole?, scanDigits?_append h.whole_ne_nil h.whole_digits hrest]
    -- the digits do not start with the zero of the first case
    intro tail heq
    cases hwhole : n.whole with
    | nil => exact h.whole_ne_nil hwhole
    | cons c cs =>
      rw [hwhole] at heq hzero
      exact hzero (congrArg some (List.cons.inj heq).1)

theorem scanFraction?_append {n : Numeral} (h : n.Proper) {rest : List Char}
    (hrest : ∀ c ∈ rest.head?, c.isDigit = false ∧ c ≠ '.') :
    scanFraction? (fractionChars n.fraction ++ rest) = some (n.fraction, rest) := by
  by_cases hnil : n.fraction = []
  · rw [fractionChars, if_pos hnil, hnil, List.nil_append, scanFraction?]
    rintro tail rfl
    exact (hrest '.' rfl).2 rfl
  · rw [fractionChars, if_neg hnil, List.cons_append, scanFraction?,
      scanDigits?_append hnil h.fraction_digits fun c hc => (hrest c hc).1]

theorem scanExponent?_append {n : Numeral} (h : n.Proper) {rest : List Char} (hrest : Ends rest) :
    scanExponent? (exponentChars n.exponent ++ rest) = some (n.exponent, rest) := by
  cases hexponent : n.exponent with
  | none =>
    cases rest with
    | nil => rfl
    | cons c rest =>
      have hc := hrest c rfl
      simp only [continues, Bool.or_eq_false_iff, beq_eq_false_iff_ne] at hc
      rw [exponentChars, List.nil_append, scanExponent?, if_neg]
      rintro (rfl | rfl)
      · exact hc.1.2 rfl
      · exact hc.2 rfl
  | some e =>
    obtain ⟨negative, digits⟩ := e
    obtain ⟨hnil, hdigits⟩ := h.exponent_digits (negative, digits) hexponent
    have hstop : ∀ c ∈ rest.head?, c.isDigit = false := by
      intro c hc
      have hfalse := hrest c hc
      simp only [continues, Bool.or_eq_false_iff] at hfalse
      exact hfalse.1.1.1
    have hscan := scanDigits?_append hnil hdigits hstop
    cases negative with
    | true =>
      rw [exponentChars, if_pos rfl, List.cons_append, List.cons_append, scanExponent?,
        if_pos (.inl rfl), scanSign]
      simp only [hscan, Option.bind_eq_bind, Option.bind_some]
    | false =>
      rw [exponentChars, if_neg Bool.false_ne_true, List.cons_append, List.cons_append,
        scanExponent?, if_pos (.inl rfl), scanSign]
      simp only [hscan, Option.bind_eq_bind, Option.bind_some]

/-! ## Scanning a numeral -/

/-- What follows the whole part continues it neither with digits nor, behind a fraction, with a
second point. -/
theorem head?_exponentChars {e : Option (Bool × List Char)} {rest : List Char} (hrest : Ends rest) :
    ∀ c ∈ (exponentChars e ++ rest).head?, c.isDigit = false ∧ c ≠ '.' := by
  intro c hc
  cases e with
  | none =>
    have hfalse := hrest c hc
    simp only [continues, Bool.or_eq_false_iff, beq_eq_false_iff_ne] at hfalse
    exact hfalse.1.1
  | some e =>
    cases hc
    decide

theorem head?_fractionChars {digits : List Char} {rest : List Char}
    (hrest : ∀ c ∈ rest.head?, c.isDigit = false ∧ c ≠ '.') :
    ∀ c ∈ (fractionChars digits ++ rest).head?, c.isDigit = false := by
  intro c hc
  by_cases hnil : digits = []
  · rw [fractionChars, if_pos hnil, List.nil_append] at hc
    exact (hrest c hc).1
  · rw [fractionChars, if_neg hnil] at hc
    cases hc
    decide

/-- A proper numeral is scanned to its end. -/
theorem scanNumeral?_chars {n : Numeral} (h : n.Proper) {rest : List Char} (hrest : Ends rest) :
    scanNumeral? (n.chars ++ rest) = some (n, rest) := by
  have hexponent := head?_exponentChars (e := n.exponent) hrest
  have hunsigned : scanUnsigned? n.negative
      (n.whole ++ (fractionChars n.fraction ++ exponentChars n.exponent) ++ rest) =
      some (n, rest) := by
    rw [List.append_assoc, List.append_assoc, scanUnsigned?,
      scanWhole?_append h (head?_fractionChars hexponent)]
    simp only [Option.bind_eq_bind, Option.bind_some, scanFraction?_append h hexponent,
      scanExponent?_append h hrest]
  cases hnegative : n.negative with
  | true =>
    rw [hnegative] at hunsigned
    simp only [chars, hnegative, if_true, List.cons_append, scanNumeral?]
    exact hunsigned
  | false =>
    rw [hnegative] at hunsigned
    simp only [chars, hnegative, if_neg Bool.false_ne_true]
    rw [scanNumeral?, hunsigned]
    -- the first digit is no minus sign
    intro tail heq
    cases hwhole : n.whole with
    | nil => exact h.whole_ne_nil hwhole
    | cons c cs =>
      have hdigit := h.whole_digits c (by rw [hwhole]; exact List.mem_cons_self)
      rw [hwhole] at heq
      rw [(List.cons.inj heq).1] at hdigit
      exact absurd hdigit (by decide)

/-! ## Integers -/

/-- The numeral of an integer. -/
def ofInt (n : Int) : Numeral := ⟨n < 0, Nat.toDigits 10 n.natAbs, [], none⟩

theorem chars_ofInt (n : Int) : (ofInt n).chars = intChars n := by
  by_cases hn : n < 0 <;>
    simp [chars, ofInt, intChars, fractionChars, exponentChars, hn]

theorem proper_ofInt (n : Int) : (ofInt n).Proper where
  whole_ne_nil := Nat.toDigits_ne_nil
  whole_digits := Text.isDigit_of_mem_toDigits
  whole_head := by
    intro hzero
    rcases Nat.eq_zero_or_pos n.natAbs with habs | hpos
    · show Nat.toDigits 10 n.natAbs = ['0']
      rw [habs, Nat.toDigits_zero]
    · exact absurd hzero (Text.head?_toDigits_ne_zero hpos)
  fraction_digits := List.forall_mem_nil _
  exponent_digits := by
    rintro e he
    cases he

end Numeral

/-- The numeral of an integer stands for it. -/
theorem Number.ofNumeral?_ofInt {n : Int}
    (h : -0x8000000000000000 ≤ n ∧ n < 0x10000000000000000) :
    ofNumeral? (.ofInt n) = some (.int n h) := by
  have hwhole : n.natAbs < 0x10000000000000000 := by omega
  have hint : ofInt? n = some (.int n h) := dif_pos h
  simp only [ofNumeral?, Numeral.ofInt, isWhole, List.isEmpty_nil, Option.isNone_none,
    Nat.ofDigitChars_ten_toDigits, hwhole, decide_true, Bool.and_self, if_true,
    decide_eq_true_eq]
  by_cases hn : n < 0
  · have hrange : 0 < n.natAbs ∧ n.natAbs ≤ 0x8000000000000000 := by omega
    rw [if_pos hn, if_pos hrange, show -(n.natAbs : Int) = n by omega, hint]
  · rw [if_neg hn, show (n.natAbs : Int) = n by omega, hint]

end SqlSelect.Json
