import SqlSelect.Decimal.Layout
import SqlSelect.Proofs.Binary64.Rounding
import SqlSelect.Proofs.Text.Digits
import Mathlib.Data.List.DropRight

/-!
# Digits of the shortest decimal

The search for the shortest decimal starts at the power of ten of the first digit and only goes to
finer grids, so that its coefficient is never zero (`coefficient_shortest_pos`). What it finds is in
the interval around the number or on the finest grid, hence less than one unit in the last place
above the number (`value_shortest_le`). The significant digits start with a digit other than zero,
and the zeros cut off at their end only move the exponent.
-/

namespace SqlSelect.Decimal

/-! ## One grid -/

/-- The nearer multiple is one of the two around the ratio. -/
theorem nearer_eq (tie : Tie) (r : Ratio) (e : Int) (below : Nat) :
    nearer tie r e below = ⟨below, e⟩ ∨ nearer tie r e below = ⟨below + 1, e⟩ := by
  unfold nearer
  dsimp only
  split
  · exact .inl rfl
  · split
    · exact .inr rfl
    · cases tie with
      | up => exact .inr rfl
      | even =>
        rcases Nat.mod_two_eq_zero_or_one below with heven | hodd
        · rw [heven]
          exact .inl rfl
        · rw [hodd]
          exact .inr rfl

/-- A hit on a grid is one of the two multiples around the ratio, and in the interval. -/
theorem onGrid?_eq_some {tie : Tie} {i : Interval} {r : Ratio} {e : Int} {d : Decimal}
    (h : onGrid? tie i r e = some d) :
    i.contains d.value = true ∧
      (d = ⟨(r * Ratio.tenPow (-e)).floor, e⟩ ∨ d = ⟨(r * Ratio.tenPow (-e)).floor + 1, e⟩) := by
  unfold onGrid? at h
  dsimp only at h
  split at h
  · rename_i hlow hhigh
    cases h
    rcases nearer_eq tie r e (r * Ratio.tenPow (-e)).floor with heq | heq <;> rw [heq]
    · exact ⟨hlow, .inl rfl⟩
    · exact ⟨hhigh, .inr rfl⟩
  · rename_i hlow _
    cases h
    exact ⟨hlow, .inl rfl⟩
  · rename_i _ hhigh
    cases h
    exact ⟨hhigh, .inr rfl⟩
  · cases h

theorem toRat_value (d : Decimal) : d.value.toRat = d.coefficient * 10 ^ d.exponent := by
  rw [value, Ratio.toRat_mul, Ratio.toRat_ofNat, Ratio.toRat_tenPow]

theorem toRat_le_high {i : Interval} {r : Ratio} (h : i.contains r = true) :
    r.toRat ≤ i.high.toRat := by
  unfold Interval.contains at h
  split at h
  · rw [Bool.and_eq_true, Ratio.le_iff, Ratio.le_iff] at h
    exact h.2
  · rw [Bool.and_eq_true, Ratio.lt_iff, Ratio.lt_iff] at h
    exact h.2.le

/-! ## The search -/

/-- A ratio not below a power of ten has a multiple of it below. -/
theorem floor_scaled_pos {r : Ratio} {e : Int} (h : (10 : ℚ) ^ e ≤ r.toRat) :
    0 < (r * Ratio.tenPow (-e)).floor := by
  have hone : 1 ≤ (r * Ratio.tenPow (-e)).toRat := by
    rw [Ratio.toRat_mul, Ratio.toRat_tenPow, zpow_neg, ← div_eq_mul_inv,
      one_le_div (by positivity)]
    exact h
  have hlt := hone.trans_lt (Ratio.lt_floor_add_one _)
  by_contra hzero
  rw [Nat.eq_zero_of_not_pos hzero] at hlt
  norm_num at hlt

theorem coefficient_search_pos (tie : Tie) (i : Interval) {r : Ratio} {e : Int}
    (h : (10 : ℚ) ^ e ≤ r.toRat) (more : Nat) : 0 < (search tie i r e more).coefficient := by
  induction more generalizing e with
  | zero =>
    rw [search]
    rcases nearer_eq tie r e (r * Ratio.tenPow (-e)).floor with heq | heq <;> rw [heq]
    · exact floor_scaled_pos h
    · exact Nat.succ_pos _
  | succ more ih =>
    rw [search]
    split
    · rename_i d hd
      rcases (onGrid?_eq_some hd).2 with rfl | rfl
      · exact floor_scaled_pos h
      · exact Nat.succ_pos _
    · exact ih ((zpow_le_zpow_right₀ (by norm_num) (by omega)).trans h)

/-- What the search finds is below the end of the interval, or near the ratio on the last grid. -/
theorem value_search_le (tie : Tie) (i : Interval) (r : Ratio) (e : Int) (more : Nat) :
    (search tie i r e more).value.toRat ≤ i.high.toRat ∨
      (search tie i r e more).value.toRat ≤ r.toRat + 10 ^ (e - more) := by
  induction more generalizing e with
  | zero =>
    right
    have hfloor := Ratio.floor_le (r * Ratio.tenPow (-e))
    rw [Ratio.toRat_mul, Ratio.toRat_tenPow, zpow_neg, ← div_eq_mul_inv,
      le_div_iff₀ (by positivity)] at hfloor
    have hunit : (0 : ℚ) < 10 ^ e := by positivity
    rw [search, Nat.cast_zero, sub_zero]
    rcases nearer_eq tie r e (r * Ratio.tenPow (-e)).floor with heq | heq <;>
      rw [heq, toRat_value]
    · dsimp only
      linarith
    · dsimp only
      push_cast
      linarith
  | succ more ih =>
    rw [search]
    split
    · rename_i d hd
      exact .inl (toRat_le_high (onGrid?_eq_some hd).1)
    · have hrest := ih (e - 1)
      rw [show e - 1 - (more : Int) = e - (more + 1 : Nat) by omega] at hrest
      exact hrest

theorem num_magnitude_pos {x : Binary64} (h : x.isZero = false) : 0 < x.magnitude.num := by
  have hsignificand : 0 < x.significand := by
    rw [Binary64.isZero] at h
    unfold Binary64.significand
    split
    · rename_i hfield
      refine Nat.pos_of_ne_zero fun hfraction => ?_
      simp [hfield, hfraction] at h
    · exact Nat.add_pos_left (by decide) _
  exact Nat.mul_pos hsignificand (Nat.pow_pos Nat.two_pos)

/-- The shortest decimal of a nonzero number is not zero. -/
theorem coefficient_shortest_pos (tie : Tie) {x : Binary64} (h : x.isZero = false) :
    0 < (shortest tie x).coefficient :=
  coefficient_search_pos tie _ (Ratio.tenPow_log10_le (num_magnitude_pos h)) 16

/-- The interval ends half a unit in the last place above the number. -/
theorem toRat_high (x : Binary64) :
    (Interval.around x).high.toRat = (x.significand + 1 / 2) * 2 ^ x.scale := by
  have hquarter : (2 : ℚ) ^ x.scale = 2 ^ (x.scale - 2) * 2 ^ (2 : Int) := by
    rw [← zpow_add₀ two_ne_zero, sub_add_cancel]
  rw [Interval.around, Ratio.toRat_mul, Ratio.toRat_ofNat, Ratio.toRat_twoPow, hquarter]
  push_cast
  ring

/-- The shortest decimal is at most one unit in the last place above the number. -/
theorem value_shortest_le (tie : Tie) {x : Binary64} (h : x.isZero = false) :
    (shortest tie x).value.toRat ≤ (x.significand + 1) * 2 ^ x.scale := by
  have hunit : (0 : ℚ) < 2 ^ x.scale := by positivity
  have hsignificand : (x.significand : ℚ) ≤ 2 ^ 53 := by exact_mod_cast x.significand_lt.le
  rcases value_search_le tie (Interval.around x) x.magnitude x.magnitude.log10 16 with hle | hle
  · rw [toRat_high] at hle
    exact hle.trans (mul_le_mul_of_nonneg_right (by linarith) hunit.le)
  · have hgrid : (10 : ℚ) ^ (x.magnitude.log10 - (16 : Nat)) ≤ 2 ^ x.scale := by
      have hlog := Ratio.tenPow_log10_le (num_magnitude_pos h)
      rw [Binary64.toRat_magnitude] at hlog
      rw [zpow_sub₀ (by norm_num), zpow_natCast, div_le_iff₀ (by positivity), mul_comm]
      refine hlog.trans (mul_le_mul_of_nonneg_right (hsignificand.trans ?_) hunit.le)
      norm_num
    rw [Binary64.toRat_magnitude] at hle
    rw [add_mul, one_mul]
    exact hle.trans (add_le_add_right hgrid _)

/-! ## Significant digits -/

/-- Significant digits: at least one, and no zero in front. -/
structure Significant (digits : List Char) : Prop where
  ne_nil : digits ≠ []
  isDigit : ∀ c ∈ digits, c.isDigit = true
  head_ne_zero : digits.head? ≠ some '0'

/-- The zeros at the end of a decimal are cut off. -/
theorem significant_append_zeros (d : Decimal) :
    ∃ zeros, Nat.toDigits 10 d.coefficient = d.significant ++ List.replicate zeros '0' := by
  have hzeros : ∀ c ∈ (Nat.toDigits 10 d.coefficient).rtakeWhile (· == '0'), c = '0' := by
    intro c hc
    have hzero := List.mem_rtakeWhile_imp hc
    exact beq_iff_eq.mp hzero
  exact ⟨_, List.eq_replicate_of_mem hzeros ▸ List.rdropWhile_append_rtakeWhile.symm⟩

theorem significant_digits {d : Decimal} (h : 0 < d.coefficient) : Significant d.significant := by
  obtain ⟨zeros, hdigits⟩ := significant_append_zeros d
  have hhead := Text.head?_toDigits_ne_zero h
  have hne : d.significant ≠ [] := by
    intro hnil
    rw [hdigits, hnil, List.nil_append] at hhead
    cases zeros with
    | zero => exact Nat.toDigits_ne_nil (hdigits.trans (List.append_eq_nil_iff.mpr ⟨hnil, rfl⟩))
    | succ zeros => exact hhead rfl
  refine ⟨hne, ?_, ?_⟩
  · intro c hc
    exact Text.isDigit_of_mem_toDigits c (hdigits ▸ List.mem_append_left _ hc)
  · rw [hdigits, List.head?_append_of_ne_nil _ hne] at hhead
    exact hhead

/-- The shortest decimal of a nonzero number has significant digits. -/
theorem significant_shortest (tie : Tie) {x : Binary64} (h : x.isZero = false) :
    Significant (shortest tie x).significant :=
  significant_digits (coefficient_shortest_pos tie h)

end SqlSelect.Decimal
