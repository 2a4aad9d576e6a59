import SqlSelect.Ratio
import Mathlib.Algebra.Order.Field.Power
import Mathlib.Data.Nat.Cast.Order.Field
import Mathlib.Data.Rat.Cast.Order
import Mathlib.Tactic.Linarith
import Mathlib.Tactic.FieldSimp
import Mathlib.Tactic.Positivity
import Mathlib.Tactic.NormNum

/-!
# Ratios as rational numbers

The operations on ratios are those of the rational numbers: comparison decides their order, rounding
adds at most a half, and the logarithms are those of the value (`twoPow_log2`, `tenPow_log10_le`).
-/

namespace SqlSelect.Ratio

/-- The rational number of a ratio. -/
def toRat (a : Ratio) : ℚ := a.num / a.den

theorem den_cast_pos (a : Ratio) : (0 : ℚ) < a.den := Nat.cast_pos.mpr a.den_pos

theorem toRat_nonneg (a : Ratio) : 0 ≤ a.toRat :=
  div_nonneg (Nat.cast_nonneg _) (Nat.cast_nonneg _)

theorem toRat_ofNat (n : Nat) : (ofNat n).toRat = n := by
  simp [toRat, ofNat]

theorem toRat_mul (a b : Ratio) : (a * b).toRat = a.toRat * b.toRat := by
  rw [toRat, toRat, toRat, num_mul, den_mul, Nat.cast_mul, Nat.cast_mul, div_mul_div_comm]

theorem toRat_pow {base : Nat} (h : 0 < base) (e : Int) :
    (pow base h e).toRat = (base : ℚ) ^ e := by
  have hne : (base : ℚ) ≠ 0 := Nat.cast_ne_zero.mpr h.ne'
  rw [toRat, pow]
  push_cast
  rcases le_total 0 e with he | he
  · obtain ⟨n, rfl⟩ := Int.eq_ofNat_of_zero_le he
    simp
  · obtain ⟨n, hn⟩ := Int.eq_ofNat_of_zero_le (Int.neg_nonneg.mpr he)
    obtain rfl : e = -(n : Int) := by omega
    simp

theorem toRat_twoPow (e : Int) : (twoPow e).toRat = 2 ^ e := toRat_pow Nat.two_pos e

theorem toRat_tenPow (e : Int) : (tenPow e).toRat = 10 ^ e := toRat_pow (Nat.succ_pos 9) e

/-! ## Comparison and rounding -/

theorem le_iff (a b : Ratio) : a.le b = true ↔ a.toRat ≤ b.toRat := by
  rw [le, decide_eq_true_eq, toRat, toRat, div_le_div_iff₀ a.den_cast_pos b.den_cast_pos]
  exact_mod_cast Iff.rfl

theorem lt_iff (a b : Ratio) : a.lt b = true ↔ a.toRat < b.toRat := by
  rw [lt, decide_eq_true_eq, toRat, toRat, div_lt_div_iff₀ a.den_cast_pos b.den_cast_pos]
  exact_mod_cast Iff.rfl

theorem floor_le (a : Ratio) : (a.floor : ℚ) ≤ a.toRat := Nat.cast_div_le

theorem lt_floor_add_one (a : Ratio) : a.toRat < a.floor + 1 := by
  rw [toRat, div_lt_iff₀ a.den_cast_pos]
  exact_mod_cast Nat.lt_mul_of_div_lt (Nat.lt_succ_self _) a.den_pos

/-- Rounding adds at most a half. -/
theorem round_le (a : Ratio) : (a.round : ℚ) ≤ a.toRat + 1 / 2 := by
  have hdiv : a.den * (a.num / a.den) + a.num % a.den = a.num := Nat.div_add_mod a.num a.den
  have hround : 2 * (a.den * a.round) ≤ 2 * a.num + a.den := by
    unfold round
    dsimp only
    split
    · omega
    · split
      · rw [Nat.mul_add, Nat.mul_one]
        omega
      · have hparity : a.den * (a.num / a.den + a.num / a.den % 2) ≤
            a.den * (a.num / a.den + 1) :=
          Nat.mul_le_mul_left _ (by omega)
        rw [Nat.mul_add a.den _ 1, Nat.mul_one] at hparity
        omega
  have hcast : 2 * ((a.den : ℚ) * a.round) ≤ 2 * a.num + a.den := by exact_mod_cast hround
  rw [toRat, ← sub_le_iff_le_add, le_div_iff₀ a.den_cast_pos]
  linarith

theorem floor_le_round (a : Ratio) : a.floor ≤ a.round := by
  unfold round floor
  dsimp only
  split
  · exact Nat.le_refl _
  · split
    · exact Nat.le_succ _
    · exact Nat.le_add_right _ _

/-! ## The binary logarithm -/

theorem two_pow_log2_le {n : Nat} (h : 0 < n) : (2 : ℚ) ^ (n.log2 : Int) ≤ n := by
  rw [zpow_natCast]
  exact_mod_cast Nat.log2_self_le h.ne'

theorem lt_two_pow_log2 (n : Nat) : (n : ℚ) < 2 ^ ((n.log2 : Int) + 1) := by
  rw [← Nat.cast_succ, zpow_natCast]
  exact_mod_cast Nat.lt_log2_self

/-- A positive ratio is from the power of two of its logarithm to below the next one. -/
theorem twoPow_log2 {a : Ratio} (h : 0 < a.num) :
    (2 : ℚ) ^ a.log2 ≤ a.toRat ∧ a.toRat < 2 ^ (a.log2 + 1) := by
  have hnum := two_pow_log2_le h
  have hnum' := lt_two_pow_log2 a.num
  have hden := two_pow_log2_le a.den_pos
  have hden' := lt_two_pow_log2 a.den
  have htwo : (2 : ℚ) ≠ 0 := two_ne_zero
  -- the lengths of numerator and denominator leave two powers of two
  have hlow : (2 : ℚ) ^ ((a.num.log2 : Int) - a.den.log2 - 1) ≤ a.toRat := by
    rw [sub_sub, zpow_sub₀ htwo, toRat, div_le_div_iff₀ (by positivity) a.den_cast_pos]
    exact mul_le_mul hnum hden'.le a.den_cast_pos.le (Nat.cast_nonneg _)
  have hhigh : a.toRat < 2 ^ ((a.num.log2 : Int) - a.den.log2 + 1) := by
    rw [sub_add_eq_add_sub, zpow_sub₀ htwo, toRat, div_lt_div_iff₀ a.den_cast_pos (by positivity)]
    exact mul_lt_mul hnum' hden (by positivity) (by positivity)
  unfold log2
  dsimp only
  split
  · rename_i hlt
    rw [lt_iff, toRat_twoPow] at hlt
    exact ⟨hlow, by rwa [sub_add_cancel]⟩
  · rename_i hge
    rw [lt_iff, toRat_twoPow, not_lt] at hge
    exact ⟨hge, hhigh⟩

/-! ## The decimal logarithm -/

theorem pow_length_toDigits_le {n : Nat} (hn : 0 < n) :
    10 ^ ((Nat.toDigits 10 n).length - 1) ≤ n := by
  by_contra hlt
  rcases Nat.eq_zero_or_pos ((Nat.toDigits 10 n).length - 1) with hzero | hpos
  · rw [hzero, pow_zero] at hlt
    omega
  · have hle := (Nat.length_toDigits_le_iff (by decide) hpos).mpr (Nat.lt_of_not_le hlt)
    omega

theorem lt_pow_length_toDigits (n : Nat) : n < 10 ^ (Nat.toDigits 10 n).length :=
  (Nat.length_toDigits_le_iff (by decide)
    (List.length_pos_iff.mpr Nat.toDigits_ne_nil)).mp (Nat.le_refl _)

/-- A positive ratio is not below the power of ten of its logarithm. -/
theorem tenPow_log10_le {a : Ratio} (h : 0 < a.num) : (10 : ℚ) ^ a.log10 ≤ a.toRat := by
  unfold log10
  split
  · rename_i hle
    have hfloor : 0 < a.floor := Nat.div_pos hle a.den_pos
    have hdigits : 0 < (Nat.toDigits 10 a.floor).length :=
      List.length_pos_iff.mpr Nat.toDigits_ne_nil
    rw [← Nat.cast_pred hdigits, zpow_natCast]
    calc (10 : ℚ) ^ ((Nat.toDigits 10 a.floor).length - 1)
        ≤ a.floor := by exact_mod_cast pow_length_toDigits_le hfloor
      _ ≤ a.toRat := a.floor_le
  · have hquotient := lt_pow_length_toDigits ((a.den - 1) / a.num)
    have hden : a.den ≤ a.num * 10 ^ (Nat.toDigits 10 ((a.den - 1) / a.num)).length := by
      have hlt := (Nat.div_lt_iff_lt_mul h).mp hquotient
      rw [Nat.mul_comm] at hlt
      omega
    rw [zpow_neg, zpow_natCast, toRat, inv_eq_one_div, div_le_div_iff₀ (by positivity)
      a.den_cast_pos, one_mul]
    exact_mod_cast hden

end SqlSelect.Ratio
