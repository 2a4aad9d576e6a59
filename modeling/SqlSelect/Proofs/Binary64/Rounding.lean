import SqlSelect.Binary64.Rounding
import SqlSelect.Proofs.Ratio
import Mathlib.Tactic.Ring

/-!
# Rounding that stays finite

Rounding keeps a ratio finite as long as it stays below the middle between the largest number and
the next power of two (`isFinite_ofRatio`), and moves a ratio from one up by at most one part in `2
^ 53` (`magnitude_ofRatio`). The numbers themselves are finite up to one unit below that power of
two.
-/

namespace SqlSelect.Binary64

/-- The least real that is rounded to an infinity. -/
def overflow : ℚ := 2 ^ 1024 - 2 ^ 970

/-- The overflow in units of the last place of the largest numbers. -/
theorem overflow_eq : overflow = (2 ^ 53 - 1 / 2) * 2 ^ (971 : Int) := by
  have htop : (2 : ℚ) ^ 1024 = 2 ^ 53 * 2 ^ 971 := pow_add 2 53 971
  have hhalf : (2 : ℚ) ^ 971 = 2 ^ 970 * 2 := pow_succ 2 970
  rw [overflow, htop, show (971 : Int) = (971 : Nat) from rfl, zpow_natCast, hhalf]
  generalize (2 : ℚ) ^ 970 = unit
  ring

/-! ## Numbers from their parts -/

theorem toNat_ofParts (negative : Bool) {bits : Nat} (h : bits < 0x8000000000000000) :
    (ofParts negative bits).bits.toNat = (if negative then 0x8000000000000000 else 0) + bits := by
  refine UInt64.toNat_ofNat_of_lt' ?_
  have hsign : (if negative then 0x8000000000000000 else 0) ≤ 0x8000000000000000 := by
    cases negative <;> decide
  have hsize : UInt64.size = 0x10000000000000000 := rfl
  omega

theorem exponentField_ofParts (negative : Bool) {bits : Nat} (h : bits < 0x8000000000000000) :
    (ofParts negative bits).exponentField = bits / 0x10000000000000 := by
  rw [exponentField, toNat_ofParts negative h]
  cases negative with
  | true => rw [if_pos rfl]; omega
  | false => rw [if_neg Bool.false_ne_true]; omega

theorem fraction_ofParts (negative : Bool) {bits : Nat} (h : bits < 0x8000000000000000) :
    (ofParts negative bits).fraction = bits % 0x10000000000000 := by
  rw [fraction, toNat_ofParts negative h]
  cases negative with
  | true => rw [if_pos rfl]; omega
  | false => rw [if_neg Bool.false_ne_true]; omega

theorem isFinite_iff (x : Binary64) : x.isFinite = true ↔ x.exponentField ≠ 2047 :=
  bne_iff_ne

theorem isFinite_ofParts (negative : Bool) {bits : Nat} (h : bits < infinityBits) :
    (ofParts negative bits).isFinite = true := by
  unfold infinityBits at h
  rw [isFinite_iff, exponentField_ofParts negative (by omega)]
  omega

/-- The sign does not count. -/
theorem isFinite_withSign (negative : Bool) {x : Binary64} (h : x.isFinite = true) :
    (x.withSign negative).isFinite = true := by
  rw [isFinite_iff] at h ⊢
  rw [withSign, exponentField_ofParts negative (Nat.mod_lt _ (by decide))]
  unfold exponentField at h
  omega

/-- A significand of 53 bits at its place; one of 54 bits carries into the exponent. -/
theorem magnitude_ofParts (negative : Bool) {place q : Nat} (hlow : 0x10000000000000 ≤ q)
    (hhigh : q ≤ 0x20000000000000) (h : place * 0x10000000000000 + q < infinityBits) :
    (ofParts negative (place * 0x10000000000000 + q)).magnitude.toRat =
      q * 2 ^ ((place : Int) - 1074) := by
  unfold infinityBits at h
  have hbits : place * 0x10000000000000 + q < 0x8000000000000000 := by omega
  have hfield := exponentField_ofParts negative hbits
  have hfraction := fraction_ofParts negative hbits
  rw [magnitude, Ratio.toRat_mul, Ratio.toRat_ofNat, Ratio.toRat_twoPow, scale, significand, hfield,
    hfraction]
  rcases Nat.lt_or_eq_of_le hhigh with hlt | rfl
  · have hdiv : (place * 0x10000000000000 + q) / 0x10000000000000 = place + 1 := by omega
    have hmod : (place * 0x10000000000000 + q) % 0x10000000000000 = q - 0x10000000000000 := by omega
    rw [hdiv, hmod, if_neg (Nat.succ_ne_zero place), Nat.add_sub_cancel' hlow,
      max_eq_left (Nat.le_add_left 1 place)]
    congr 2
    omega
  · have hdiv : (place * 0x10000000000000 + 0x20000000000000) / 0x10000000000000 = place + 2 := by
      omega
    have hmod : (place * 0x10000000000000 + 0x20000000000000) % 0x10000000000000 = 0 := by omega
    rw [hdiv, hmod, if_neg (Nat.succ_ne_zero _), max_eq_left (Nat.le_add_left 1 _),
      show ((place + 2 : Nat) : Int) - 1075 = (place - 1074) + 1 by omega,
      zpow_add_one₀ two_ne_zero]
    push_cast
    ring

/-! ## Rounding -/

/-- The place of the last bit that a ratio is rounded at. -/
def lastPlace (r : Ratio) : Int := max (r.log2 - 52) (-1074)

/-- The significand that a ratio is rounded to. -/
def rounded (r : Ratio) : Nat := (r * Ratio.twoPow (-lastPlace r)).round

theorem ofRatio_eq (negative : Bool) {r : Ratio} (h : 0 < r.num) :
    ofRatio negative r =
      if (lastPlace r + 1074).toNat * 0x10000000000000 + rounded r < infinityBits then
        ofParts negative ((lastPlace r + 1074).toNat * 0x10000000000000 + rounded r)
      else infinity negative := by
  rw [ofRatio, if_neg h.ne']
  rfl

theorem toRat_scaled (r : Ratio) (e : Int) :
    (r * Ratio.twoPow (-e)).toRat = r.toRat / 2 ^ e := by
  rw [Ratio.toRat_mul, Ratio.toRat_twoPow, zpow_neg, div_eq_mul_inv]

/-- Rounding adds at most half a unit in the last place. -/
theorem rounded_mul_le (r : Ratio) :
    (rounded r : ℚ) * 2 ^ lastPlace r ≤ r.toRat + 2 ^ lastPlace r / 2 := by
  have hround := Ratio.round_le (r * Ratio.twoPow (-lastPlace r))
  rw [toRat_scaled] at hround
  calc (rounded r : ℚ) * 2 ^ lastPlace r
      ≤ (r.toRat / 2 ^ lastPlace r + 1 / 2) * 2 ^ lastPlace r :=
        mul_le_mul_of_nonneg_right hround (by positivity)
    _ = r.toRat + 2 ^ lastPlace r / 2 := by
        rw [add_mul, div_mul_cancel₀ _ (by positivity)]
        ring

/-- A ratio has at most 53 bits in front of its last place. -/
theorem rounded_le {r : Ratio} (h : 0 < r.num) : rounded r ≤ 0x20000000000000 := by
  have hlog := (Ratio.twoPow_log2 h).2
  have hplace : r.log2 + 1 ≤ 53 + lastPlace r := by
    unfold lastPlace
    omega
  have hlt : r.toRat < 2 ^ 53 * 2 ^ lastPlace r := by
    rw [← zpow_natCast, ← zpow_add₀ two_ne_zero]
    exact hlog.trans_le (zpow_le_zpow_right₀ one_le_two hplace)
  have hpos : (0 : ℚ) < 2 ^ lastPlace r := by positivity
  have hround := rounded_mul_le r
  have hstep : (rounded r : ℚ) * 2 ^ lastPlace r < (2 ^ 53 + 1) * 2 ^ lastPlace r := by
    rw [add_mul, one_mul]
    linarith
  have hcast := lt_of_mul_lt_mul_right hstep hpos.le
  have hnat : rounded r < 2 ^ 53 + 1 := by exact_mod_cast hcast
  omega

theorem bits_lt_infinityBits {r : Ratio} (hpos : 0 < r.num) (h : r.toRat < overflow) :
    (lastPlace r + 1074).toNat * 0x10000000000000 + rounded r < infinityBits := by
  have hlow := (Ratio.twoPow_log2 hpos).1
  have hle := rounded_le hpos
  have hlog : r.log2 < 1024 := by
    rw [← zpow_lt_zpow_iff_right₀ (one_lt_two (α := ℚ))]
    refine hlow.trans_lt (h.trans ?_)
    unfold overflow
    norm_num
  have hplace : lastPlace r ≤ 971 := by
    unfold lastPlace
    omega
  unfold infinityBits
  rcases Int.lt_or_eq_of_le hplace with hlt | heq
  · omega
  · -- at the last place of the largest numbers there is no carry
    have hround := rounded_mul_le r
    rw [heq] at hround
    rw [overflow_eq, sub_mul] at h
    have hstep : (rounded r : ℚ) * 2 ^ (971 : Int) < 2 ^ 53 * 2 ^ (971 : Int) := by linarith
    have hcast := lt_of_mul_lt_mul_right hstep (by positivity)
    have hnat : rounded r < 2 ^ 53 := by exact_mod_cast hcast
    omega

/-- A ratio below the overflow is rounded to a finite number. -/
theorem isFinite_ofRatio (negative : Bool) {r : Ratio} (h : r.toRat < overflow) :
    (ofRatio negative r).isFinite = true := by
  rcases Nat.eq_zero_or_pos r.num with hzero | hpos
  · rw [ofRatio, if_pos hzero]
    exact isFinite_zero negative
  · have hbits := bits_lt_infinityBits hpos h
    rw [ofRatio_eq negative hpos, if_pos hbits]
    exact isFinite_ofParts negative hbits

/-! ## The error of rounding -/

/-- The most that rounding enlarges a ratio from one up by. -/
def slack : ℚ := 1 + 1 / 2 ^ 53

section FromOne

variable {r : Ratio} (hone : 1 ≤ r.toRat)
include hone

theorem num_pos_of_one_le : 0 < r.num := by
  refine Nat.pos_of_ne_zero fun hzero => ?_
  rw [Ratio.toRat, hzero, Nat.cast_zero, zero_div] at hone
  norm_num at hone

/-- From one up the last place is 52 bits behind the first. -/
theorem lastPlace_eq : lastPlace r = r.log2 - 52 ∧ 0 ≤ r.log2 := by
  have hlog : 0 < r.log2 + 1 := by
    rw [← zpow_lt_zpow_iff_right₀ (one_lt_two (α := ℚ)), zpow_zero]
    exact hone.trans_lt (Ratio.twoPow_log2 (num_pos_of_one_le hone)).2
  unfold lastPlace
  omega

/-- The first bit of the rounded significand is set. -/
theorem two_pow_mul_le : (2 : ℚ) ^ 52 * 2 ^ lastPlace r ≤ r.toRat := by
  rw [← zpow_natCast, ← zpow_add₀ two_ne_zero, (lastPlace_eq hone).1]
  refine (zpow_le_zpow_right₀ one_le_two ?_).trans (Ratio.twoPow_log2 (num_pos_of_one_le hone)).1
  omega

theorem le_rounded : 0x10000000000000 ≤ rounded r := by
  refine Nat.le_trans ?_ (Ratio.floor_le_round _)
  have hfloor := Ratio.lt_floor_add_one (r * Ratio.twoPow (-lastPlace r))
  have hscaled : (2 : ℚ) ^ 52 ≤ (r * Ratio.twoPow (-lastPlace r)).toRat := by
    rw [toRat_scaled, le_div_iff₀ (by positivity)]
    exact two_pow_mul_le hone
  have hcast := hscaled.trans_lt hfloor
  have hnat : 2 ^ 52 < (r * Ratio.twoPow (-lastPlace r)).floor + 1 := by exact_mod_cast hcast
  omega

/-- A ratio from one up is rounded to a number from one up that is hardly larger. -/
theorem magnitude_ofRatio (negative : Bool) (hlt : r.toRat < overflow) :
    1 ≤ (ofRatio negative r).magnitude.toRat ∧
      (ofRatio negative r).magnitude.toRat ≤ r.toRat * slack := by
  have hpos := num_pos_of_one_le hone
  have hbits := bits_lt_infinityBits hpos hlt
  have hlow := le_rounded hone
  obtain ⟨hplace, hlog⟩ := lastPlace_eq hone
  have hexact : (ofRatio negative r).magnitude.toRat = rounded r * 2 ^ lastPlace r := by
    rw [ofRatio_eq negative hpos, if_pos hbits,
      magnitude_ofParts negative hlow (rounded_le hpos) hbits]
    congr 2
    omega
  rw [hexact]
  constructor
  · calc (1 : ℚ) ≤ 2 ^ r.log2 := one_le_zpow₀ one_le_two hlog
      _ = 2 ^ 52 * 2 ^ lastPlace r := by
          rw [← zpow_natCast, ← zpow_add₀ two_ne_zero, hplace]
          congr 1
          omega
      _ ≤ rounded r * 2 ^ lastPlace r :=
          mul_le_mul_of_nonneg_right (by exact_mod_cast hlow) (by positivity)
  · have hround := rounded_mul_le r
    have hunit := two_pow_mul_le hone
    have htwo : (2 : ℚ) ^ 53 = 2 ^ 52 * 2 := pow_succ 2 52
    have hhalf : (2 : ℚ) ^ lastPlace r / 2 ≤ r.toRat / 2 ^ 53 := by
      rw [htwo, div_mul_eq_div_div, div_le_div_iff_of_pos_right two_pos,
        le_div_iff₀ (by positivity), mul_comm]
      exact hunit
    calc (rounded r : ℚ) * 2 ^ lastPlace r ≤ r.toRat + r.toRat / 2 ^ 53 := by linarith
      _ = r.toRat * slack := by rw [slack, mul_add, mul_one, mul_one_div]

end FromOne

/-! ## Finite numbers -/

theorem fraction_lt (x : Binary64) : x.fraction < 0x10000000000000 :=
  Nat.mod_lt _ (by decide)

theorem exponentField_le {x : Binary64} (h : x.isFinite = true) : x.exponentField ≤ 2046 := by
  rw [isFinite_iff] at h
  have hlt : x.exponentField < 0x800 := Nat.mod_lt _ (by decide)
  omega

theorem significand_lt (x : Binary64) : x.significand < 2 ^ 53 := by
  have hfraction := x.fraction_lt
  unfold significand
  split <;> omega

theorem toRat_magnitude (x : Binary64) : x.magnitude.toRat = x.significand * 2 ^ x.scale := by
  rw [magnitude, Ratio.toRat_mul, Ratio.toRat_ofNat, Ratio.toRat_twoPow]

theorem magnitude_lt_overflow {x : Binary64} (h : x.isFinite = true) :
    x.magnitude.toRat < overflow := by
  have hfield := exponentField_le h
  have hscale : x.scale ≤ 971 := by
    unfold scale
    omega
  have hsignificand : (x.significand : ℚ) + 1 ≤ 2 ^ 53 := by exact_mod_cast x.significand_lt
  rw [toRat_magnitude, overflow_eq]
  calc (x.significand : ℚ) * 2 ^ x.scale ≤ x.significand * 2 ^ (971 : Int) :=
        mul_le_mul_of_nonneg_left (zpow_le_zpow_right₀ one_le_two hscale) (Nat.cast_nonneg _)
    _ < (2 ^ 53 - 1 / 2) * 2 ^ (971 : Int) := by
        refine mul_lt_mul_of_pos_right ?_ (by positivity)
        linarith

theorem isFinite_mul {x y : Binary64} (h : x.magnitude.toRat * y.magnitude.toRat < overflow) :
    (x.mul y).isFinite = true := by
  apply isFinite_ofRatio
  rw [Ratio.toRat_mul]
  exact h

/-- Dividing a finite number by one that is not below one leaves it finite. -/
theorem isFinite_div {x y : Binary64} (hx : x.isFinite = true) (hy : 1 ≤ y.magnitude.toRat) :
    (x.div y).isFinite = true := by
  apply isFinite_ofRatio
  refine lt_of_le_of_lt ?_ (magnitude_lt_overflow hx)
  rw [Ratio.toRat_mul]
  refine mul_le_of_le_one_right x.magnitude.toRat_nonneg ?_
  rw [Ratio.toRat, one_le_div y.magnitude.den_cast_pos] at hy
  have hden : 0 < max y.magnitude.num 1 := Nat.lt_of_lt_of_le Nat.one_pos (le_max_right _ _)
  rw [Ratio.toRat, div_le_one (Nat.cast_pos.mpr hden)]
  exact hy.trans (Nat.cast_le.mpr (le_max_left _ _))

end SqlSelect.Binary64
