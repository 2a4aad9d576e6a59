import SqlSelect.Proofs.Binary64.Rounding
import SqlSelect.Proofs.Json.Numeral

/-!
# Numerals that stand for a finite number

A numeral that is no integer is read by scaling its digits with a power of ten, and each of the
three roundings on the way enlarges by at most one part in `2 ^ 53`. So a numeral whose value stays
below the overflow with that much to spare stands for a finite number (`isFinite_floatOfNumeral`).
-/

namespace SqlSelect.Json

open Binary64

/-- The value of a numeral without its sign. -/
def Numeral.value (n : Numeral) : ℚ :=
  Nat.ofDigitChars 10 (n.whole ++ n.fraction) 0 *
    10 ^ (Number.writtenExponent n.exponent - n.fraction.length)

namespace Number

/-! ## Powers of ten -/

theorem tenPow_lt_overflow : (10 : ℚ) ^ 308 < overflow := by
  have hnat : 10 ^ 308 + 2 ^ 970 < 2 ^ 1024 := by decide +kernel
  have hcast : (10 : ℚ) ^ 308 + 2 ^ 970 < 2 ^ 1024 := by exact_mod_cast hnat
  exact lt_sub_iff_add_lt.mpr hcast

theorem overflow_lt_tenPow : overflow < (10 : ℚ) ^ 309 := by
  have hnat : 2 ^ 1024 < 10 ^ 309 := by decide +kernel
  have hcast : (2 : ℚ) ^ 1024 < 10 ^ 309 := by exact_mod_cast hnat
  exact (sub_lt_self _ (by positivity)).trans hcast

theorem one_le_slack : 1 ≤ slack :=
  le_add_of_nonneg_right (by positivity)

/-- A power of ten that is scaled by is finite, and hardly larger than it should be. -/
theorem magnitude_powerOfTen {k : Nat} (h : k ≤ 308) :
    1 ≤ (powerOfTen k).magnitude.toRat ∧ (powerOfTen k).magnitude.toRat ≤ 10 ^ k * slack := by
  have hexact : (Ratio.ofNat (Nat.pow 10 k)).toRat = 10 ^ k :=
    (Ratio.toRat_ofNat _).trans (Nat.cast_pow 10 k)
  have hle : (10 : ℚ) ^ k ≤ 10 ^ 308 := pow_le_pow_right₀ (by norm_num) h
  rw [← hexact]
  refine magnitude_ofRatio ?_ false ?_
  · rw [hexact]
    exact one_le_pow₀ (by norm_num)
  · rw [hexact]
    exact hle.trans_lt tenPow_lt_overflow

theorem magnitude_powerOfTen_zero : (powerOfTen 0).magnitude.toRat = 1 := by
  have hone : (powerOfTen 0).magnitude.num = (powerOfTen 0).magnitude.den := by decide +kernel
  rw [Ratio.toRat, hone, div_self (Ratio.den_cast_pos _).ne']

/-! ## Scaling -/

/-- Scaling down keeps a finite number finite. -/
theorem isFinite_scaleBy_of_nonpos {x : Binary64} {e : Int} (hx : x.isFinite = true) (he : e ≤ 0) :
    (scaleBy x e).isFinite = true := by
  induction x, e using scaleBy.induct with
  | case1 x e hzero => rwa [scaleBy, if_pos hzero]
  | case2 x e hzero hhuge => omega
  | case3 x e hzero hhuge hnonneg =>
    obtain rfl : e = 0 := Int.le_antisymm he hnonneg
    rw [scaleBy, if_neg hzero, if_neg hhuge, if_pos hnonneg]
    apply isFinite_mul
    rw [Int.toNat_zero, magnitude_powerOfTen_zero, mul_one]
    exact magnitude_lt_overflow hx
  | case4 x e hzero hhuge hneg hstep =>
    rw [scaleBy, if_neg hzero, if_neg hhuge, if_neg hneg, if_pos hstep]
    exact isFinite_div hx (magnitude_powerOfTen (by omega)).1
  | case5 x e hzero hhuge hneg hstep ih =>
    rw [scaleBy, if_neg hzero, if_neg hhuge, if_neg hneg, if_neg hstep]
    exact ih (isFinite_div hx (magnitude_powerOfTen (Nat.le_refl 308)).1) (by omega)

theorem toRat_ofNat_lt_overflow {n : Nat} (h : n < 0x10000000000000000) :
    (Ratio.ofNat n).toRat < overflow := by
  have hnat : n < 10 ^ 20 := by omega
  have hcast : (n : ℚ) < 10 ^ 20 := by exact_mod_cast hnat
  have hpow : (10 : ℚ) ^ 20 ≤ 10 ^ 308 := pow_le_pow_right₀ (by norm_num) (by decide)
  rw [Ratio.toRat_ofNat]
  exact (hcast.trans_le hpow).trans tenPow_lt_overflow

/-- Below the overflow no power of ten beyond `10 ^ 308` is reached. -/
theorem exponent_le {n : Nat} {e : Int} (hn : 0 < n)
    (h : (n * 10 ^ e : ℚ) * (slack * slack) < overflow) : e ≤ 308 := by
  by_contra hlarge
  have hone : (1 : ℚ) ≤ n := by exact_mod_cast hn
  have hpow : (10 : ℚ) ^ 309 ≤ 10 ^ e := by
    rw [← zpow_natCast]
    exact zpow_le_zpow_right₀ (by norm_num) (by omega)
  have hprod : (10 : ℚ) ^ 309 ≤ n * 10 ^ e * (slack * slack) :=
    calc (10 : ℚ) ^ 309 ≤ 10 ^ e := hpow
      _ ≤ n * 10 ^ e := le_mul_of_one_le_left (by positivity) hone
      _ ≤ n * 10 ^ e * (slack * slack) := le_mul_of_one_le_right (by positivity)
          (one_le_mul_of_one_le_of_one_le one_le_slack one_le_slack)
  exact absurd (hprod.trans_lt h) overflow_lt_tenPow.not_gt

/-- A significand times a power of ten is finite when the exact product leaves room for the two
roundings of the factors. -/
theorem isFinite_scaleBy {significand : Nat} {e : Int} (hsmall : significand < 0x10000000000000000)
    (h : (significand * 10 ^ e : ℚ) * (slack * slack) < overflow) :
    (scaleBy (ofNat significand) e).isFinite = true := by
  have hlt := toRat_ofNat_lt_overflow hsmall
  have hfinite : (ofNat significand).isFinite = true := isFinite_ofRatio false hlt
  rcases le_or_gt e 0 with he | he
  · exact isFinite_scaleBy_of_nonpos hfinite he
  · by_cases hzero : (ofNat significand).isZero = true
    · rwa [scaleBy, if_pos hzero]
    · have hpos : 0 < significand := by
        refine Nat.pos_of_ne_zero ?_
        rintro rfl
        exact hzero (by decide)
      have hhuge := exponent_le hpos h
      have hone : 1 ≤ (Ratio.ofNat significand).toRat := by
        rw [Ratio.toRat_ofNat]
        exact_mod_cast hpos
      have hfactor := (magnitude_ofRatio hone false hlt).2
      have hpower := (magnitude_powerOfTen (k := e.toNat) (by omega)).2
      have hnonneg : 0 ≤ significand * slack :=
        mul_nonneg (Nat.cast_nonneg _) (zero_le_one.trans one_le_slack)
      rw [Ratio.toRat_ofNat] at hfactor
      rw [← zpow_natCast, Int.toNat_of_nonneg he.le] at hpower
      rw [scaleBy, if_neg hzero, if_neg (by omega), if_pos he.le]
      apply isFinite_mul
      refine lt_of_le_of_lt (mul_le_mul hfactor hpower (Ratio.toRat_nonneg _) hnonneg) ?_
      rw [mul_mul_mul_comm]
      exact h

/-! ## Absorbing digits -/

theorem digitValue_le {c : Char} (h : c.isDigit = true) : digitValue c ≤ 9 := by
  have hhigh := (Text.toNat_of_isDigit h).2
  show c.toNat - 48 ≤ 9
  omega

/-- Up to 19 digits fit the significand. -/
theorem absorb_of_fits {digits : List Char} {significand taken : Nat}
    (hdigits : ∀ c ∈ digits, c.isDigit = true) (hlt : significand < 10 ^ taken)
    (hle : taken + digits.length ≤ 19) :
    absorb significand digits = (Nat.ofDigitChars 10 digits significand, []) := by
  induction digits generalizing significand taken with
  | nil => rw [absorb, Nat.ofDigitChars_nil]
  | cons c rest ih =>
    rw [List.length_cons] at hle
    have hvalue := digitValue_le (hdigits c List.mem_cons_self)
    have hnext : 10 * significand + digitValue c < 10 ^ (taken + 1) := by
      rw [Nat.pow_succ]
      omega
    have hfits : 10 * significand + digitValue c < 0x10000000000000000 :=
      hnext.trans (Nat.lt_of_le_of_lt (Nat.pow_le_pow_right (by decide) (by omega : taken + 1 ≤ 19))
        (by decide))
    have hrest := ih (fun d hd => hdigits d (List.mem_cons_of_mem c hd)) hnext (by omega)
    rw [absorb, if_pos hfits, hrest, Nat.ofDigitChars_cons]
    rfl

/-- The significand with zeros for the digits left over is at most the number that is written. -/
theorem absorb_le (significand : Nat) (digits : List Char) :
    (absorb significand digits).1 * 10 ^ (absorb significand digits).2.length ≤
      Nat.ofDigitChars 10 digits significand := by
  induction digits generalizing significand with
  | nil =>
    rw [absorb, Nat.ofDigitChars_nil]
    exact Nat.le_of_eq (Nat.mul_one significand)
  | cons c rest ih =>
    rw [absorb]
    split
    · rw [Nat.ofDigitChars_cons]
      exact ih (10 * significand + digitValue c)
    · rw [Nat.ofDigitChars_eq_ofDigitChars_zero, Nat.mul_comm]
      exact Nat.le_add_right _ _

theorem absorb_lt {significand : Nat} (h : significand < 0x10000000000000000) (digits : List Char) :
    (absorb significand digits).1 < 0x10000000000000000 := by
  induction digits generalizing significand with
  | nil => exact h
  | cons c rest ih =>
    rw [absorb]
    split
    · rename_i hfits
      exact ih hfits
    · exact h

/-! ## Reading -/

/-- A numeral of at most 19 whole digits whose value leaves room for the roundings is finite. -/
theorem isFinite_floatOfNumeral {n : Numeral} (hdigits : ∀ c ∈ n.whole, c.isDigit = true)
    (hwhole : n.whole.length ≤ 19) (h : n.value * (slack * slack) < overflow) :
    (floatOfNumeral n).isFinite = true := by
  have hfits : absorb 0 n.whole = (Nat.ofDigitChars 10 n.whole 0, []) := by
    refine absorb_of_fits hdigits (Nat.pow_pos (by decide) : 0 < 10 ^ 0) ?_
    rwa [Nat.zero_add]
  have hbound : Nat.ofDigitChars 10 n.whole 0 < 0x10000000000000000 := by
    have hlt := absorb_lt (by decide : 0 < 0x10000000000000000) n.whole
    rw [hfits] at hlt
    exact hlt
  have hle := absorb_le (Nat.ofDigitChars 10 n.whole 0) n.fraction
  have hsmall := absorb_lt hbound n.fraction
  rw [← Nat.ofDigitChars_append] at hle
  rw [floatOfNumeral, hfits]
  dsimp only
  generalize absorb (Nat.ofDigitChars 10 n.whole 0) n.fraction = absorbed at hle hsmall
  obtain ⟨significand, unused⟩ := absorbed
  dsimp only at hle hsmall ⊢
  apply isFinite_withSign
  apply isFinite_scaleBy hsmall
  refine lt_of_le_of_lt (mul_le_mul_of_nonneg_right ?_ ?_) h
  · have hcast : (significand : ℚ) * 10 ^ unused.length ≤
        Nat.ofDigitChars 10 (n.whole ++ n.fraction) 0 := by exact_mod_cast hle
    have hten : (10 : ℚ) ≠ 0 := by norm_num
    have hexponent : (([] : List Char).length : Int) - (n.fraction.length - unused.length) +
        writtenExponent n.exponent =
        unused.length + (writtenExponent n.exponent - n.fraction.length) := by
      rw [List.length_nil]
      omega
    rw [Numeral.value, hexponent, zpow_add₀ hten, zpow_natCast, ← mul_assoc]
    exact mul_le_mul_of_nonneg_right hcast (by positivity)
  · exact mul_self_nonneg slack

end Number

end SqlSelect.Json
