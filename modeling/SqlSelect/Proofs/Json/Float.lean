import SqlSelect.Proofs.Decimal.Shortest
import SqlSelect.Proofs.Json.Number

/-!
# Numerals of floating-point numbers

A finite number is written as a numeral with a fraction or an exponent: its shortest decimal with
the point among the digits, or with one digit before the point and a power of ten behind them.
Either way the numeral is proper, so that the written form of every number is scanned to its end,
and its value is that of the decimal. Since the decimal is hardly larger than the number, what is
read is finite again; for the three largest numbers of each sign, where the estimate is too coarse,
it is computed.
-/

namespace SqlSelect.Json

open Decimal

namespace Numeral

/-- The numeral with the point among the digits, the first of which stands for `10 ^ e`. -/
def positional (negative : Bool) (digits : List Char) (e : Int) : Numeral :=
  if e < 0 then ⟨negative, ['0'], List.replicate (-e - 1).toNat '0' ++ digits, none⟩
  else
    let whole := e.toNat + 1
    ⟨negative, digits.take whole ++ List.replicate (whole - digits.length) '0',
      if digits.drop whole = [] then ['0'] else digits.drop whole, none⟩

/-- The numeral with one digit before the point and the power of ten written behind. -/
def scientific (negative : Bool) (digits : List Char) (e : Int) : Numeral :=
  ⟨negative, digits.take 1, digits.drop 1, some (e < 0, Nat.toDigits 10 e.natAbs)⟩

/-- The numeral of significant digits. -/
def ofDigits (negative : Bool) (digits : List Char) (e : Int) : Numeral :=
  if Layout.json.positional e then positional negative digits e else scientific negative digits e

/-- The numeral of a finite number. -/
def ofFloat (x : Binary64) : Numeral :=
  if x.isZero then ⟨x.negative, ['0'], ['0'], none⟩
  else ofDigits x.negative (shortest .even x).significant (shortest .even x).leading

/-! ## Written forms -/

theorem fractionChars_of_ne_nil {digits : List Char} (h : digits ≠ []) :
    fractionChars digits = '.' :: digits :=
  if_neg h

/-- The written form of a numeral is that of its unsigned part, with a minus in front if negative.
-/
theorem chars_of_unsigned {n : Numeral} {unsigned : List Char}
    (h : n.whole ++ (fractionChars n.fraction ++ exponentChars n.exponent) = unsigned) :
    n.chars = if n.negative then '-' :: unsigned else unsigned := by
  rw [chars, h]

theorem chars_positional (negative : Bool) {digits : List Char} (h : digits ≠ []) (e : Int) :
    (positional negative digits e).chars =
      if negative then '-' :: positionalChars true digits e else positionalChars true digits e := by
  unfold positional positionalChars
  by_cases he : e < 0
  · rw [if_pos he, if_pos he]
    apply chars_of_unsigned
    rw [fractionChars_of_ne_nil (List.append_ne_nil_of_right_ne_nil _ h)]
    simp [exponentChars]
  · rw [if_neg he, if_neg he]
    apply chars_of_unsigned
    dsimp only
    cases hdrop : digits.drop (e.toNat + 1) with
    | nil => simp [fractionChars, exponentChars]
    | cons c rest => simp [fractionChars, exponentChars]

theorem chars_scientific (negative : Bool) (digits : List Char) (e : Int) :
    (scientific negative digits e).chars =
      if negative then '-' :: scientificChars digits e else scientificChars digits e := by
  apply chars_of_unsigned
  unfold scientificChars scientific
  dsimp only
  rw [List.append_assoc]
  congr 2
  · rw [fractionChars]
    cases digits.drop 1 with
    | nil => rfl
    | cons c rest => exact if_neg (List.cons_ne_nil c rest)
  · rw [exponentChars]
    by_cases he : e < 0 <;> simp [he]

theorem chars_ofFloat (x : Binary64) : (ofFloat x).chars = Layout.json.writeFinite x := by
  unfold ofFloat Layout.writeFinite
  by_cases hzero : x.isZero = true
  · rw [if_pos hzero, if_pos hzero]
    exact chars_of_unsigned rfl
  · rw [if_neg hzero, if_neg hzero]
    have hdigits := significant_shortest .even (Bool.eq_false_iff.mpr hzero)
    unfold ofDigits Layout.write
    by_cases hposition : Layout.json.positional (shortest .even x).leading = true
    · rw [if_pos hposition, chars_positional _ hdigits.ne_nil]
      simp only [show Layout.json.tie = .even from rfl, show Layout.json.keepsPoint = true from rfl,
        hposition, if_true]
    · rw [if_neg hposition, chars_scientific]
      simp only [show Layout.json.tie = .even from rfl, hposition, Bool.false_eq_true, if_false]

/-! ## Proper numerals -/

theorem proper_positional (negative : Bool) {digits : List Char} (h : Significant digits)
    (e : Int) : (positional negative digits e).Proper := by
  obtain ⟨first, rest, rfl⟩ := List.exists_cons_of_ne_nil h.ne_nil
  unfold positional
  by_cases he : e < 0
  · rw [if_pos he]
    exact {
      whole_ne_nil := List.cons_ne_nil _ _
      whole_digits := Text.isDigit_of_mem_zeros 1
      whole_head := fun _ => rfl
      fraction_digits := fun c hc => (List.mem_append.mp hc).elim
        (Text.isDigit_of_mem_zeros _ c) (h.isDigit c)
      exponent_digits := fun e he => nomatch he }
  · rw [if_neg he]
    exact {
      whole_ne_nil := List.cons_ne_nil _ _
      whole_digits := fun c hc => (List.mem_append.mp hc).elim
        (fun hc => h.isDigit c (List.mem_of_mem_take hc)) (Text.isDigit_of_mem_zeros _ c)
      whole_head := fun hzero => absurd hzero h.head_ne_zero
      fraction_digits := by
        dsimp only
        split
        · exact Text.isDigit_of_mem_zeros 1
        · exact fun c hc => h.isDigit c (List.mem_of_mem_drop hc)
      exponent_digits := fun e he => nomatch he }

theorem proper_scientific (negative : Bool) {digits : List Char} (h : Significant digits)
    (e : Int) : (scientific negative digits e).Proper := by
  obtain ⟨first, rest, rfl⟩ := List.exists_cons_of_ne_nil h.ne_nil
  exact {
    whole_ne_nil := List.cons_ne_nil _ _
    whole_digits := fun c hc => h.isDigit c (List.mem_of_mem_take hc)
    whole_head := fun hzero => absurd hzero h.head_ne_zero
    fraction_digits := fun c hc => h.isDigit c (List.mem_of_mem_drop hc)
    exponent_digits := by
      rintro _ ⟨⟩
      exact ⟨Nat.toDigits_ne_nil, Text.isDigit_of_mem_toDigits⟩ }

theorem proper_ofFloat (x : Binary64) : (ofFloat x).Proper := by
  unfold ofFloat
  by_cases hzero : x.isZero = true
  · rw [if_pos hzero]
    exact {
      whole_ne_nil := List.cons_ne_nil _ _
      whole_digits := Text.isDigit_of_mem_zeros 1
      whole_head := fun _ => rfl
      fraction_digits := Text.isDigit_of_mem_zeros 1
      exponent_digits := fun e he => nomatch he }
  · rw [if_neg hzero]
    have hdigits := significant_shortest .even (Bool.eq_false_iff.mpr hzero)
    unfold ofDigits
    split
    · exact proper_positional _ hdigits _
    · exact proper_scientific _ hdigits _

/-! ## Values -/

theorem value_positional (negative : Bool) (digits : List Char) (e : Int) :
    (positional negative digits e).value =
      Nat.ofDigitChars 10 digits 0 * 10 ^ (e + 1 - digits.length) := by
  unfold positional
  by_cases he : e < 0
  · rw [if_pos he, value]
    dsimp only [Number.writtenExponent]
    congr 2
    · rw [Nat.ofDigitChars_append, Nat.ofDigitChars_append, Nat.ofDigitChars_replicate_zero]
      rfl
    · rw [List.length_append, List.length_replicate]
      omega
  · rw [if_neg he]
    by_cases hdrop : digits.drop (e.toNat + 1) = []
    · -- zeros fill the places up to the point, and a digit behind it adds one more
      have hle : digits.length ≤ e.toNat + 1 := List.drop_eq_nil_iff.mp hdrop
      have hten : (10 : ℚ) ≠ 0 := by norm_num
      dsimp only
      rw [if_pos hdrop, List.take_of_length_le hle, value]
      dsimp only [Number.writtenExponent]
      rw [Nat.ofDigitChars_append, Nat.ofDigitChars_append, Nat.ofDigitChars_replicate_zero]
      show ((10 * (10 ^ (e.toNat + 1 - digits.length) * Nat.ofDigitChars 10 digits 0) + 0 : Nat) :
        ℚ) * 10 ^ (0 - 1 : Int) = _
      rw [show e + 1 - (digits.length : Int) = ((e.toNat + 1 - digits.length : Nat) : Int) by omega,
        zpow_natCast, zero_sub, zpow_neg_one]
      push_cast
      rw [add_zero]
      field_simp
    · have hlt : e.toNat + 1 < digits.length := Nat.lt_of_not_le (mt List.drop_eq_nil_iff.mpr hdrop)
      dsimp only
      rw [if_neg hdrop, Nat.sub_eq_zero_of_le hlt.le, List.replicate_zero, List.append_nil, value]
      dsimp only [Number.writtenExponent]
      rw [List.take_append_drop, List.length_drop]
      congr 2
      omega

theorem value_scientific (negative : Bool) {digits : List Char} (h : digits ≠ []) (e : Int) :
    (scientific negative digits e).value =
      Nat.ofDigitChars 10 digits 0 * 10 ^ (e + 1 - digits.length) := by
  have hpos : 0 < digits.length := List.length_pos_iff.mpr h
  have hwritten : Number.writtenExponent (some (decide (e < 0), Nat.toDigits 10 e.natAbs)) = e := by
    dsimp only [Number.writtenExponent]
    rw [Nat.ofDigitChars_ten_toDigits]
    by_cases he : e < 0
    · rw [if_pos (decide_eq_true he)]
      omega
    · rw [if_neg (by simpa using he)]
      omega
  rw [scientific, value, hwritten, List.take_append_drop, List.length_drop]
  congr 2
  omega

theorem value_ofDigits (negative : Bool) {digits : List Char} (h : digits ≠ []) (e : Int) :
    (ofDigits negative digits e).value =
      Nat.ofDigitChars 10 digits 0 * 10 ^ (e + 1 - digits.length) := by
  unfold ofDigits
  split
  · exact value_positional negative digits e
  · exact value_scientific negative h e

/-- The significant digits stand for the decimal. -/
theorem ofDigitChars_significant (d : Decimal) :
    Nat.ofDigitChars 10 d.significant 0 * (10 : ℚ) ^ (d.leading + 1 - d.significant.length) =
      d.value.toRat := by
  obtain ⟨zeros, hdigits⟩ := significant_append_zeros d
  have hcoefficient : d.coefficient = 10 ^ zeros * Nat.ofDigitChars 10 d.significant 0 := by
    rw [← Nat.ofDigitChars_replicate_zero, ← Nat.ofDigitChars_append, ← hdigits,
      Nat.ofDigitChars_ten_toDigits]
  have hplaces : d.leading + 1 - d.significant.length = zeros + d.exponent := by
    rw [leading, hdigits, List.length_append, List.length_replicate]
    omega
  have hten : (10 : ℚ) ≠ 0 := by norm_num
  rw [hplaces, zpow_add₀ hten, zpow_natCast, toRat_value, ← mul_assoc]
  congr 1
  rw [hcoefficient, mul_comm]
  push_cast
  rfl

theorem length_whole_ofDigits (negative : Bool) (digits : List Char) (e : Int) :
    (ofDigits negative digits e).whole.length ≤ 19 := by
  unfold ofDigits
  split
  · rename_i hposition
    have hlarge : e < 16 := by
      simp only [Layout.json, Bool.and_eq_true, decide_eq_true_eq] at hposition
      exact hposition.2
    unfold positional
    split
    · exact Nat.succ_le_succ (Nat.zero_le 18)
    · dsimp only
      rw [List.length_append, List.length_take, List.length_replicate]
      omega
  · exact (List.length_take_le 1 digits).trans (by decide)

/-! ## Finite numbers are read as finite numbers -/

open Binary64

/-- The three largest numbers of either sign. -/
theorem isFinite_floatOfNumeral_largest : ∀ negative : Bool, ∀ k : Fin 3,
    (Number.floatOfNumeral (ofFloat (ofParts negative (infinityBits - 1 - k)))).isFinite =
      true := by
  decide +kernel

/-- Below the largest numbers, the numeral leaves room for the roundings of reading. -/
theorem value_lt_overflow {x : Binary64} (h : x.isFinite = true)
    (hroom : x.significand + 4 ≤ 2 ^ 53 ∨ x.scale ≤ 970) {value : ℚ}
    (hvalue : value ≤ (x.significand + 1) * 2 ^ x.scale) :
    value * (slack * slack) < overflow := by
  have hscale : x.scale ≤ 971 := by
    have hfield := exponentField_le h
    unfold scale
    omega
  have hslack : 0 ≤ slack * slack := mul_self_nonneg slack
  have hunit : (0 : ℚ) < 2 ^ (971 : Int) := by positivity
  rw [overflow_eq]
  refine lt_of_le_of_lt (mul_le_mul_of_nonneg_right hvalue hslack) ?_
  rcases hroom with hsignificand | hsmall
  · have hcast : (x.significand : ℚ) + 4 ≤ 2 ^ 53 := by exact_mod_cast hsignificand
    calc ((x.significand : ℚ) + 1) * 2 ^ x.scale * (slack * slack)
        ≤ (2 ^ 53 - 3) * 2 ^ (971 : Int) * (slack * slack) := by
          refine mul_le_mul_of_nonneg_right (mul_le_mul (by linarith)
            (zpow_le_zpow_right₀ one_le_two hscale) (by positivity) (by norm_num)) hslack
      _ = (2 ^ 53 - 3) * (slack * slack) * 2 ^ (971 : Int) := mul_right_comm _ _ _
      _ < (2 ^ 53 - 1 / 2) * 2 ^ (971 : Int) := by
          refine mul_lt_mul_of_pos_right ?_ hunit
          norm_num [slack]
  · have hcast : (x.significand : ℚ) + 1 ≤ 2 ^ 53 := by exact_mod_cast x.significand_lt
    have hhalf : (2 : ℚ) ^ (971 : Int) = 2 ^ (970 : Int) * 2 := zpow_add_one₀ two_ne_zero 970
    calc ((x.significand : ℚ) + 1) * 2 ^ x.scale * (slack * slack)
        ≤ 2 ^ 53 * 2 ^ (970 : Int) * (slack * slack) := by
          refine mul_le_mul_of_nonneg_right (mul_le_mul hcast
            (zpow_le_zpow_right₀ one_le_two hsmall) (by positivity) (by positivity)) hslack
      _ = 2 ^ 53 / 2 * (slack * slack) * 2 ^ (971 : Int) := by
          rw [hhalf]
          ring
      _ < (2 ^ 53 - 1 / 2) * 2 ^ (971 : Int) := by
          refine mul_lt_mul_of_pos_right ?_ hunit
          norm_num [slack]

/-- A number without that room is one of the three largest. -/
theorem eq_largest {x : Binary64} (h : x.isFinite = true)
    (hsignificand : 2 ^ 53 < x.significand + 4) (hscale : 970 < x.scale) :
    ∃ negative : Bool, ∃ k : Fin 3, x = ofParts negative (infinityBits - 1 - k) := by
  have hfield := exponentField_le h
  have hfraction := x.fraction_lt
  have htop : x.exponentField = 2046 := by
    unfold scale at hscale
    omega
  have hbits : x.bits.toNat < 2 ^ 64 := x.bits.toNat_lt
  rw [significand, if_neg (by omega)] at hsignificand
  refine ⟨x.negative, ⟨0xFFFFFFFFFFFFF - x.fraction, by omega⟩, ?_⟩
  have hsame : (ofParts x.negative (infinityBits - 1 - (0xFFFFFFFFFFFFF - x.fraction))).bits.toNat =
      x.bits.toNat := by
    unfold infinityBits
    rw [toNat_ofParts _ (by omega)]
    unfold Binary64.fraction at hfraction ⊢
    unfold exponentField at htop
    by_cases hnegative : x.negative = true
    · rw [if_pos hnegative]
      rw [Binary64.negative, decide_eq_true_eq] at hnegative
      omega
    · rw [if_neg hnegative]
      rw [Binary64.negative, decide_eq_true_eq] at hnegative
      omega
  exact congrArg Binary64.mk (UInt64.toNat_inj.mp hsame.symm)

/-- The numeral of a finite number stands for a finite number. -/
theorem isFinite_floatOfNumeral_ofFloat {x : Binary64} (h : x.isFinite = true) :
    (Number.floatOfNumeral (ofFloat x)).isFinite = true := by
  by_cases hzero : x.isZero = true
  · rw [ofFloat, if_pos hzero]
    refine Number.isFinite_floatOfNumeral (Text.isDigit_of_mem_zeros 1)
      (Nat.succ_le_succ (Nat.zero_le 18)) ?_
    have hvalue : (⟨x.negative, ['0'], ['0'], none⟩ : Numeral).value = 0 := by
      rw [value]
      exact mul_eq_zero_of_left Nat.cast_zero _
    rw [hvalue, zero_mul, overflow_eq]
    positivity
  · by_cases hroom : x.significand + 4 ≤ 2 ^ 53 ∨ x.scale ≤ 970
    · have hnonzero := Bool.eq_false_iff.mpr hzero
      have hdigits := significant_shortest .even hnonzero
      have hproper := proper_ofFloat x
      rw [ofFloat, if_neg hzero] at hproper ⊢
      refine Number.isFinite_floatOfNumeral hproper.whole_digits (length_whole_ofDigits _ _ _) ?_
      rw [value_ofDigits _ hdigits.ne_nil, ofDigitChars_significant]
      exact value_lt_overflow h hroom (value_shortest_le .even hnonzero)
    · rw [not_or, not_le, not_le] at hroom
      obtain ⟨negative, k, rfl⟩ := eq_largest h hroom.1 hroom.2
      exact isFinite_floatOfNumeral_largest negative k

end Numeral

/-! ## Numbers -/

/-- The numeral that a number is written as. -/
def Number.numeral : Number → Numeral
  | .int n _ => .ofInt n
  | .float x _ => .ofFloat x

theorem Number.chars_numeral (n : Number) : n.numeral.chars = n.chars := by
  cases n with
  | int n range => exact Numeral.chars_ofInt n
  | float x finite => exact Numeral.chars_ofFloat x

theorem Number.proper_numeral (n : Number) : n.numeral.Proper := by
  cases n with
  | int n range => exact Numeral.proper_ofInt n
  | float x finite => exact Numeral.proper_ofFloat x

/-- A float is not written as an integer. -/
theorem Number.isWhole_ofFloat (x : Binary64) : isWhole (.ofFloat x) = false := by
  unfold Numeral.ofFloat
  by_cases hzero : x.isZero = true
  · rw [if_pos hzero]
    rfl
  · rw [if_neg hzero]
    have hdigits := significant_shortest .even (Bool.eq_false_iff.mpr hzero)
    unfold Numeral.ofDigits
    split
    · have hfraction : (Numeral.positional x.negative (shortest .even x).significant
          (shortest .even x).leading).fraction ≠ [] := by
        unfold Numeral.positional
        split
        · exact List.append_ne_nil_of_right_ne_nil _ hdigits.ne_nil
        · dsimp only
          split
          · exact List.cons_ne_nil _ _
          · assumption
      rw [isWhole, List.isEmpty_eq_false_iff.mpr hfraction, Bool.false_and]
    · exact Bool.and_false _

/-- The numeral of any number stands for a number. -/
theorem Number.ofNumeral?_numeral (n : Number) : ∃ m, ofNumeral? n.numeral = some m := by
  cases n with
  | int n range => exact ⟨_, ofNumeral?_ofInt range⟩
  | float x finite =>
    have hread := Numeral.isFinite_floatOfNumeral_ofFloat finite
    refine ⟨.float _ hread, ?_⟩
    show ofNumeral? (.ofFloat x) = _
    rw [ofNumeral?, isWhole_ofFloat, Bool.false_and, if_neg Bool.false_ne_true]
    exact dif_pos hread

end SqlSelect.Json
