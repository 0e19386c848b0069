import BlockScript.Number.Limits
import BlockScript.Proofs.Number.Rational
import Mathlib.Algebra.Order.Field.Power
import Mathlib.Tactic.Ring

/-!
# Decimals within limits

What the limits of an arithmetic make of a number. One that is within them stays as it is. Every
other one is rounded to the last place that is kept, unless it comes up to a threshold, half a unit
above the greatest number that there is; from there on there is no result.
-/

namespace BlockScript.Decimal

variable {d r : Decimal} {n : Nat} {e : Int}

/-! ## Digits -/

theorem digitCount_pos (d : Decimal) : 0 < d.digitCount := Nat.length_toDigits_pos

theorem digitCount_le_iff (hn : 0 < n) : d.digitCount ≤ n ↔ d.coefficient < 10 ^ n :=
  Nat.length_toDigits_le_iff (by decide) hn

theorem coefficient_lt (d : Decimal) : d.coefficient < 10 ^ d.digitCount :=
  (digitCount_le_iff d.digitCount_pos).mp (Nat.le_refl _)

theorem le_coefficient (h : d.isZero ≠ true) : 10 ^ (d.digitCount - 1) ≤ d.coefficient := by
  by_cases hone : d.digitCount = 1
  · have hcoefficient : d.coefficient ≠ 0 := by simpa [isZero] using h
    rw [hone]
    exact Nat.pos_of_ne_zero hcoefficient
  · have hpos := d.digitCount_pos
    have hmore : ¬ d.digitCount ≤ d.digitCount - 1 := by omega
    rwa [digitCount_le_iff (by omega), Nat.not_lt] at hmore

theorem digitCount_of_isZero (h : d.isZero = true) : d.digitCount = 1 := by
  have hle : d.digitCount ≤ 1 := by
    rw [digitCount_le_iff Nat.one_pos, eq_of_beq h]
    decide
  exact Nat.le_antisymm hle d.digitCount_pos

theorem leading_of_isZero (h : d.isZero = true) : d.leading = d.exponent := by
  rw [leading, digitCount_of_isZero h, Nat.cast_one, Int.add_sub_cancel]

/-- There are no more digits than bits. -/
theorem digitCount_le_log2 (d : Decimal) : d.digitCount ≤ d.coefficient.log2 + 1 := by
  rw [digitCount_le_iff (Nat.succ_pos _)]
  exact Nat.lt_of_lt_of_le Nat.lt_log2_self (Nat.pow_le_pow_left (by decide) _)

theorem zpow_leading_le (h : d.isZero ≠ true) : 10 ^ d.leading ≤ |d.toRat| := by
  have hpower : (0 : ℚ) < 10 ^ d.exponent := zpow_pos (by norm_num) _
  have hle : (10 : ℚ) ^ (d.digitCount - 1) ≤ d.coefficient := by exact_mod_cast le_coefficient h
  have hsplit : d.leading = (d.digitCount - 1 : Nat) + d.exponent := by
    have hpositive := d.digitCount_pos
    unfold leading
    omega
  rw [abs_toRat, hsplit, zpow_add₀ (by norm_num), zpow_natCast]
  exact mul_le_mul_of_nonneg_right hle hpower.le

theorem abs_toRat_lt (d : Decimal) : |d.toRat| < 10 ^ (d.leading + 1) := by
  have hpower : (0 : ℚ) < 10 ^ d.exponent := zpow_pos (by norm_num) _
  have hlt : (d.coefficient : ℚ) < 10 ^ d.digitCount := by exact_mod_cast d.coefficient_lt
  have hsplit : d.leading + 1 = d.digitCount + d.exponent := by
    unfold leading
    omega
  rw [abs_toRat, hsplit, zpow_add₀ (by norm_num), zpow_natCast]
  exact mul_lt_mul_of_pos_right hlt hpower

/-- Which powers of ten a number reaches is told by its first digit. -/
theorem leading_le_iff (h : d.isZero ≠ true) : d.leading ≤ e ↔ |d.toRat| < 10 ^ (e + 1) := by
  constructor
  · intro hle
    exact d.abs_toRat_lt.trans_le (zpow_le_zpow_right₀ (by norm_num) (by omega))
  · intro hlt
    have hexponents := (zpow_lt_zpow_iff_right₀ (by norm_num)).mp ((zpow_leading_le h).trans_lt hlt)
    omega

theorem reaches_iff_leading : 10 ^ (e + 1) ≤ |d.toRat| ↔ d.isZero ≠ true ∧ e < d.leading := by
  have hpower : (0 : ℚ) < 10 ^ (e + 1) := zpow_pos (by norm_num) _
  by_cases hzero : d.isZero = true
  · rw [toRat_eq_zero.mpr hzero, abs_zero]
    exact iff_of_false (not_le.mpr hpower) fun h => h.1 hzero
  · rw [← not_lt, ← leading_le_iff hzero, Int.not_le, and_iff_right hzero]

/-! ## Rounding -/

theorem dropDigits_eq (d : Decimal) (n : Nat) : d.dropDigits n =
    ⟨d.negative, Number.roundHalfEven d.coefficient (10 ^ n), d.exponent + n⟩ := by
  unfold dropDigits
  split
  · rename_i hlt
    have hpower : 10 * 10 ^ d.digitCount ≤ 10 ^ n := by
      rw [← Nat.pow_succ']
      exact Nat.pow_le_pow_right (by decide) hlt
    have hsmall : 2 * d.coefficient < 10 ^ n := by
      have h := d.coefficient_lt
      omega
    rw [Number.roundHalfEven_eq_zero hsmall]
  · rfl

theorem dropDigits_zero (d : Decimal) : d.dropDigits 0 = d := by
  have hone : 0 < 10 ^ 0 := by decide
  have hsame := Number.roundHalfEven_mul d.coefficient hone
  rw [Nat.pow_zero, Nat.mul_one] at hsame
  rw [dropDigits_eq, Nat.pow_zero, hsame, Nat.cast_zero, Int.add_zero]

namespace Limits

variable {l : Limits}

/-- A decimal that has no more digits than there may be, all of them in places that there are. -/
structure Holds (l : Limits) (d : Decimal) : Prop where
  digits : d.digitCount ≤ l.precision
  exponent : l.leastExponent ≤ d.exponent
  leading : d.leading ≤ l.greatest

/-- The last place that is kept of a decimal. -/
def lastPlace (l : Limits) (d : Decimal) : Int :=
  max d.exponent (max (d.leading - l.precision + 1) l.leastExponent)

/-- The coefficient in units of that place. -/
def units (l : Limits) (d : Decimal) : Nat :=
  Number.roundHalfEven d.coefficient (10 ^ l.excess d)

theorem exponent_add_excess (l : Limits) (d : Decimal) :
    d.exponent + l.excess d = l.lastPlace d := by
  unfold excess lastPlace leading
  omega

theorem excess_eq_zero : l.excess d = 0 ↔
    d.digitCount ≤ l.precision ∧ l.leastExponent ≤ d.exponent := by
  unfold excess
  omega

/-- Where digits of places that are not too small are rounded away, there are too many of them. -/
theorem digitCount_of_excess (h : l.excess d ≠ 0) (hplace : l.leastExponent < l.lastPlace d) :
    d.digitCount = l.precision + l.excess d := by
  rw [← exponent_add_excess] at hplace
  unfold excess at *
  omega

theorem leastExponent_le (l : Limits) : l.leastExponent ≤ l.greatest - l.precision + 1 := by
  have hordered := l.ordered
  unfold leastExponent
  omega

theorem dropDigits_excess (l : Limits) (d : Decimal) :
    d.dropDigits (l.excess d) = ⟨d.negative, l.units d, l.lastPlace d⟩ := by
  rw [dropDigits_eq, exponent_add_excess, units]

/-- The coefficient is less than what as many digits as there may be can count in the last place. -/
theorem coefficient_lt_excess (l : Limits) (d : Decimal) :
    d.coefficient < 10 ^ l.precision * 10 ^ l.excess d := by
  have hdigits : d.digitCount ≤ l.precision + l.excess d := by
    unfold excess
    omega
  rw [← Nat.pow_add]
  exact Nat.lt_of_lt_of_le d.coefficient_lt (Nat.pow_le_pow_right (by decide) hdigits)

theorem units_le (l : Limits) (d : Decimal) : l.units d ≤ 10 ^ l.precision :=
  Number.roundHalfEven_le (Nat.pow_pos (by decide)) (l.coefficient_lt_excess d)

theorem abs_toRat_eq (l : Limits) (d : Decimal) :
    |d.toRat| = (d.coefficient : ℚ) / (10 ^ l.excess d : Nat) * 10 ^ l.lastPlace d := by
  have hpower : (10 : ℚ) ^ l.excess d ≠ 0 := pow_ne_zero _ (by norm_num)
  rw [abs_toRat, ← exponent_add_excess, zpow_add₀ (by norm_num), zpow_natCast, Nat.cast_pow,
    Nat.cast_ofNat]
  field_simp

theorem isNearestEven_units (l : Limits) (d : Decimal) :
    IsNearestEven (|d.toRat| / 10 ^ l.lastPlace d) (l.units d) := by
  rw [abs_toRat_eq l, mul_div_cancel_right₀ _ (zpow_ten_ne_zero _)]
  exact Number.isNearestEven_roundHalfEven _ (Nat.pow_pos (by decide))

theorem round_eq (l : Limits) (d : Decimal) : l.round d =
    if l.units d = 10 ^ l.precision then
      ⟨d.negative, 10 ^ (l.precision - 1), l.lastPlace d + 1⟩
    else ⟨d.negative, l.units d, l.lastPlace d⟩ := by
  have hmany : l.precision < digitCount ⟨d.negative, l.units d, l.lastPlace d⟩ ↔
      l.units d = 10 ^ l.precision := by
    rw [← Nat.not_le, digitCount_le_iff l.positive, Nat.not_lt]
    exact (l.units_le d).ge_iff_eq
  unfold round
  dsimp only
  rw [dropDigits_excess, if_congr hmany rfl rfl]
  split
  · rename_i hcarry
    have htens : l.units d = 10 ^ (l.precision - 1) * 10 ^ 1 := by
      rw [← Nat.pow_add, Nat.sub_add_cancel l.positive, hcarry]
    rw [dropDigits_eq]
    dsimp only
    rw [htens, Number.roundHalfEven_mul _ (by decide), Nat.cast_one]
  · rfl

theorem negative_round (l : Limits) (d : Decimal) : (l.round d).negative = d.negative := by
  rw [round_eq]
  split <;> rfl

/-- What is carried into the exponent does not change the number. -/
theorem abs_toRat_round (l : Limits) (d : Decimal) :
    |(l.round d).toRat| = l.units d * 10 ^ l.lastPlace d := by
  rw [abs_toRat, round_eq]
  split
  · rename_i hcarry
    have htens : ((10 ^ (l.precision - 1) : Nat) : ℚ) * 10 = (10 ^ l.precision : Nat) := by
      have hcarried : 10 ^ (l.precision - 1) * 10 = 10 ^ l.precision := by
        rw [← Nat.pow_succ, Nat.succ_eq_add_one, Nat.sub_add_cancel l.positive]
      exact_mod_cast hcarried
    rw [hcarry, ← htens, zpow_add_one₀ (by norm_num)]
    ring
  · rfl

theorem digitCount_round (l : Limits) (d : Decimal) : (l.round d).digitCount ≤ l.precision := by
  rw [digitCount_le_iff l.positive, round_eq]
  split
  · exact Nat.pow_lt_pow_right (by decide) (Nat.sub_lt l.positive (by decide))
  · rename_i hcarry
    exact Nat.lt_of_le_of_ne (l.units_le d) hcarry

theorem leastExponent_le_round (l : Limits) (d : Decimal) :
    l.leastExponent ≤ (l.round d).exponent := by
  have hplace : l.leastExponent ≤ l.lastPlace d := by
    unfold lastPlace
    omega
  rw [round_eq]
  split <;> dsimp only <;> omega

theorem round_of_excess (h : l.excess d = 0) : l.round d = d := by
  unfold round
  dsimp only
  rw [h, dropDigits_zero, if_neg (Nat.not_lt.mpr (excess_eq_zero.mp h).1)]

/-! ## The threshold -/

/-- Half a unit of the last place above the greatest number within the limits. -/
def threshold (l : Limits) : ℚ := (10 ^ l.precision - 1 / 2) * 10 ^ (l.greatest - l.precision + 1)

theorem zpow_greatest (l : Limits) :
    (10 : ℚ) ^ (l.greatest + 1) = 10 ^ l.precision * 10 ^ (l.greatest - l.precision + 1) := by
  rw [← zpow_natCast, ← zpow_add₀ (by norm_num)]
  ring_nf

theorem threshold_le (l : Limits) : l.threshold ≤ 10 ^ (l.greatest + 1) := by
  have hunit : (0 : ℚ) ≤ 10 ^ (l.greatest - l.precision + 1) := zpow_nonneg (by norm_num) _
  rw [zpow_greatest]
  exact mul_le_mul_of_nonneg_right (by linarith) hunit

theorem lt_threshold (l : Limits) : 10 ^ l.greatest < l.threshold := by
  have hunit : (0 : ℚ) < 10 ^ (l.greatest - l.precision + 1) := zpow_pos (by norm_num) _
  have hone : (1 : ℚ) ≤ 10 ^ l.precision := one_le_pow₀ (by norm_num)
  have htenth : (10 : ℚ) ^ l.greatest = 10 ^ l.precision / 10 *
      10 ^ (l.greatest - l.precision + 1) := by
    rw [div_mul_eq_mul_div, ← zpow_greatest, zpow_add_one₀ (by norm_num),
      mul_div_cancel_right₀ _ (by norm_num)]
  rw [htenth]
  exact mul_lt_mul_of_pos_right (by linarith) hunit

/-- Where smaller places are kept than the last one of the greatest number, that number is far. -/
theorem small_of_lastPlace_lt (h : l.lastPlace d < l.greatest - l.precision + 1) :
    |d.toRat| < 10 ^ l.greatest ∧ |(l.round d).toRat| ≤ 10 ^ l.greatest := by
  have hunit : (0 : ℚ) < 10 ^ l.lastPlace d := zpow_pos (by norm_num) _
  have hbound : (10 : ℚ) ^ l.precision * 10 ^ l.lastPlace d ≤ 10 ^ l.greatest := by
    rw [← zpow_natCast, ← zpow_add₀ (by norm_num)]
    exact zpow_le_zpow_right₀ (by norm_num) (by omega)
  constructor
  · have hlt : (d.coefficient : ℚ) / (10 ^ l.excess d : Nat) < 10 ^ l.precision := by
      rw [div_lt_iff₀ (by exact_mod_cast Nat.pow_pos (by decide))]
      exact_mod_cast l.coefficient_lt_excess d
    rw [abs_toRat_eq l]
    exact (mul_lt_mul_of_pos_right hlt hunit).trans_le hbound
  · have hle : (l.units d : ℚ) ≤ 10 ^ l.precision := by exact_mod_cast l.units_le d
    rw [abs_toRat_round]
    exact (mul_le_mul_of_nonneg_right hle hunit.le).trans hbound

/-- In the last place of the greatest number, what is rounded up from half a unit below the next
power of ten on reaches that power, for it is even. -/
theorem reaches_of_lastPlace_eq (h : l.lastPlace d = l.greatest - l.precision + 1) :
    10 ^ (l.greatest + 1) ≤ |(l.round d).toRat| ↔ l.threshold ≤ |d.toRat| := by
  have hunit : (0 : ℚ) < 10 ^ l.lastPlace d := zpow_pos (by norm_num) _
  have hscale : (0 : ℚ) < (10 ^ l.excess d : Nat) := by exact_mod_cast Nat.pow_pos (by decide)
  have heven : Even (10 ^ l.precision) := (by decide : Even 10).pow_of_ne_zero l.positive.ne'
  have hreach := Number.even_le_roundHalfEven_iff d.coefficient
    (Nat.pow_pos (n := l.excess d) (by decide : 0 < 10)) heven
  rw [abs_toRat_round, zpow_greatest, threshold, ← h, mul_le_mul_iff_left₀ hunit, abs_toRat_eq l,
    mul_le_mul_iff_left₀ hunit, le_div_iff₀ hscale]
  constructor
  · intro hle
    have hle' : 2 * ((10 : ℚ) ^ l.precision * (10 ^ l.excess d : Nat)) ≤
        2 * d.coefficient + (10 ^ l.excess d : Nat) := by
      exact_mod_cast hreach.mp (by exact_mod_cast hle)
    linarith
  · intro hle
    have hle' : 2 * ((10 : ℚ) ^ l.precision * (10 ^ l.excess d : Nat)) ≤
        2 * d.coefficient + (10 ^ l.excess d : Nat) := by linarith
    exact_mod_cast hreach.mpr (by exact_mod_cast hle')

/-- A decimal that stays as it is and has no smaller places than the greatest number is a multiple of
the last place of that number, so there is none between the threshold and the next power of ten. -/
theorem reaches_of_excess_eq_zero (hexcess : l.excess d = 0)
    (h : l.greatest - l.precision + 1 ≤ d.exponent) :
    10 ^ (l.greatest + 1) ≤ |(l.round d).toRat| ↔ l.threshold ≤ |d.toRat| := by
  obtain ⟨k, hk⟩ : ∃ k : Nat, d.exponent = k + (l.greatest - l.precision + 1) :=
    ⟨(d.exponent - (l.greatest - l.precision + 1)).toNat, by omega⟩
  have hunit : (0 : ℚ) < 10 ^ (l.greatest - l.precision + 1) := zpow_pos (by norm_num) _
  have hscaled : |d.toRat| = d.coefficient * 10 ^ k * 10 ^ (l.greatest - l.precision + 1) := by
    rw [abs_toRat, hk, zpow_add₀ (by norm_num), zpow_natCast, mul_assoc]
  rw [round_of_excess hexcess, hscaled, zpow_greatest, threshold, mul_le_mul_iff_left₀ hunit,
    mul_le_mul_iff_left₀ hunit]
  refine ⟨fun hle => by linarith, fun hle => ?_⟩
  by_contra hlt
  have hsucc : (d.coefficient : ℚ) * 10 ^ k + 1 ≤ 10 ^ l.precision := by
    have hlt' : d.coefficient * 10 ^ k < 10 ^ l.precision := by exact_mod_cast not_le.mp hlt
    exact_mod_cast hlt'
  linarith

/-- What has too many digits is rounded to as many as there may be. -/
theorem zpow_le_abs_toRat_round (hzero : d.isZero ≠ true)
    (hdigits : d.digitCount = l.precision + l.excess d) :
    10 ^ d.leading ≤ |(l.round d).toRat| := by
  have hpositive := l.positive
  have hplace := l.exponent_add_excess d
  have hleading : d.leading = (l.precision - 1 : Nat) + l.lastPlace d := by
    unfold leading
    omega
  have hunits : 10 ^ (l.precision - 1) ≤ l.units d := by
    refine Number.le_roundHalfEven (Nat.pow_pos (by decide)) ?_
    have hcount : l.precision - 1 + l.excess d = d.digitCount - 1 := by omega
    rw [← Nat.pow_add, hcount]
    exact le_coefficient hzero
  rw [abs_toRat_round, hleading, zpow_add₀ (by norm_num), zpow_natCast]
  exact mul_le_mul_of_nonneg_right (by exact_mod_cast hunits) (zpow_nonneg (by norm_num) _)

/-- Where only greater places are kept than the last one of the greatest number, the decimal stays
as it is, or it has too many digits before that place. -/
theorem reaches_of_lt_lastPlace (h : l.greatest - l.precision + 1 < l.lastPlace d) :
    10 ^ (l.greatest + 1) ≤ |(l.round d).toRat| ↔ l.threshold ≤ |d.toRat| := by
  have hplace := l.exponent_add_excess d
  by_cases hexcess : l.excess d = 0
  · exact reaches_of_excess_eq_zero hexcess (by omega)
  · have hpositive := l.positive
    have hdigits := digitCount_of_excess hexcess (l.leastExponent_le.trans_lt h)
    have hzero : d.isZero ≠ true := by
      intro hzero
      have hone := digitCount_of_isZero hzero
      omega
    have hleading : l.greatest + 1 ≤ d.leading := by
      unfold leading
      omega
    have hpowers : (10 : ℚ) ^ (l.greatest + 1) ≤ 10 ^ d.leading :=
      zpow_le_zpow_right₀ (by norm_num) hleading
    exact iff_of_true (hpowers.trans (zpow_le_abs_toRat_round hzero hdigits))
      (l.threshold_le.trans (hpowers.trans (zpow_leading_le hzero)))

/-- The rounded number reaches the power of ten after the greatest number just if the number itself
reaches the threshold. -/
theorem reaches_iff (l : Limits) (d : Decimal) :
    10 ^ (l.greatest + 1) ≤ |(l.round d).toRat| ↔ l.threshold ≤ |d.toRat| := by
  rcases lt_trichotomy (l.lastPlace d) (l.greatest - l.precision + 1) with hlt | heq | hgt
  · obtain ⟨hnumber, hround⟩ := small_of_lastPlace_lt hlt
    have hpower : (10 : ℚ) ^ l.greatest < 10 ^ (l.greatest + 1) :=
      zpow_lt_zpow_right₀ (by norm_num) (by omega)
    exact iff_of_false (not_le.mpr (hround.trans_lt hpower))
      (not_le.mpr (hnumber.trans l.lt_threshold))
  · exact reaches_of_lastPlace_eq heq
  · exact reaches_of_lt_lastPlace hgt

/-! ## Results -/

theorem holds_of_clearlyHolds (h : l.clearlyHolds d = true) : l.Holds d := by
  have hdigits := d.digitCount_le_log2
  simp only [clearlyHolds, Bool.and_eq_true, decide_eq_true_eq] at h
  refine ⟨by omega, h.1.1, ?_⟩
  unfold leading
  omega

theorem round_of_holds (h : l.Holds d) : l.round d = d :=
  round_of_excess (excess_eq_zero.mpr ⟨h.digits, h.exponent⟩)

/-- The look at exponent and bits in advance makes no difference. -/
theorem apply_eq (l : Limits) (d : Decimal) : l.apply d =
    if (l.round d).leading ≤ l.greatest then some (l.round d)
    else if (l.round d).isZero then some { l.round d with exponent := l.greatest }
    else none := by
  unfold apply
  split
  · rename_i hclearly
    have hholds := holds_of_clearlyHolds hclearly
    rw [round_of_holds hholds, if_pos hholds.leading]
  · rfl

theorem apply_of_holds (h : l.Holds d) : l.apply d = some d := by
  rw [apply_eq, round_of_holds h, if_pos h.leading]

/-- A decimal has no result just if its number reaches the threshold. -/
theorem apply_eq_none_iff : l.apply d = none ↔ l.threshold ≤ |d.toRat| := by
  rw [← reaches_iff, reaches_iff_leading, apply_eq]
  split
  · rename_i hleading
    exact iff_of_false nofun fun h => Int.not_lt.mpr hleading h.2
  · rename_i hleading
    split
    · rename_i hzero
      exact iff_of_false nofun fun h => h.1 hzero
    · rename_i hzero
      exact iff_of_true rfl ⟨hzero, Int.not_le.mp hleading⟩

/-- `r` is `d` rounded to the last place that is kept, to an even digit if two are equally near. The
exponent tells this place, unless a zero too many at the end goes into it or the place is beyond the
greatest one for a zero. -/
structure IsRounded (l : Limits) (d r : Decimal) : Prop where
  holds : l.Holds r
  negative : r.negative = d.negative
  nearest : ∃ n : Int, IsNearestEven (|d.toRat| / 10 ^ l.lastPlace d) n ∧
    |r.toRat| = n * 10 ^ l.lastPlace d
  exponent : r.exponent = l.lastPlace d ∨
    r.coefficient = 10 ^ (l.precision - 1) ∧ r.exponent = l.lastPlace d + 1 ∨
    r.isZero = true ∧ r.exponent = l.greatest ∧ l.greatest < l.lastPlace d
  exact : r = d ↔ l.Holds d

theorem exponent_round (l : Limits) (d : Decimal) : (l.round d).exponent = l.lastPlace d ∨
    (l.round d).coefficient = 10 ^ (l.precision - 1) ∧
      (l.round d).exponent = l.lastPlace d + 1 := by
  rw [round_eq]
  split
  · exact .inr ⟨rfl, rfl⟩
  · exact .inl rfl

theorem isRounded_round (hleading : (l.round d).leading ≤ l.greatest)
    (hexact : l.Holds (l.round d) → (l.round d = d ↔ l.Holds d)) : l.IsRounded d (l.round d) := by
  have hholds : l.Holds (l.round d) := ⟨l.digitCount_round d, l.leastExponent_le_round d, hleading⟩
  exact ⟨hholds, l.negative_round d, ⟨l.units d, l.isNearestEven_units d, l.abs_toRat_round d⟩,
    or_assoc.mp (.inl (l.exponent_round d)), hexact hholds⟩

/-- The last place that a zero keeps is where it was, which may be too great. -/
theorem lt_lastPlace_of_isZero (hzero : (l.round d).isZero = true)
    (hleading : ¬ (l.round d).leading ≤ l.greatest) : l.greatest < l.lastPlace d := by
  rw [leading_of_isZero hzero] at hleading
  obtain hexponent | ⟨hcarry, -⟩ := l.exponent_round d
  · omega
  · have hpower : 10 ^ (l.precision - 1) ≠ 0 := (Nat.pow_pos (by decide)).ne'
    exact absurd (hcarry.symm.trans (eq_of_beq hzero)) hpower

theorem isRounded_zero (hzero : (l.round d).isZero = true)
    (hleading : ¬ (l.round d).leading ≤ l.greatest)
    (hr : r = { l.round d with exponent := l.greatest })
    (hexact : l.Holds r → (r = d ↔ l.Holds d)) : l.IsRounded d r := by
  have hzero' : r.isZero = true := by
    rw [hr]
    exact hzero
  have hexponent : r.exponent = l.greatest := by rw [hr]
  have hholds : l.Holds r := by
    have hpositive := l.positive
    have hleast := l.leastExponent_le
    refine ⟨(digitCount_of_isZero hzero').trans_le hpositive, by omega, ?_⟩
    rw [leading_of_isZero hzero', hexponent]
  have hnegative : r.negative = d.negative := by
    rw [hr]
    exact l.negative_round d
  have hnumber : |r.toRat| = l.units d * 10 ^ l.lastPlace d := by
    rw [toRat_eq_zero.mpr hzero', ← abs_toRat_round, toRat_eq_zero.mpr hzero]
  exact ⟨hholds, hnegative, ⟨l.units d, l.isNearestEven_units d, hnumber⟩,
    .inr (.inr ⟨hzero', hexponent, lt_lastPlace_of_isZero hzero hleading⟩), hexact hholds⟩

/-- What there is for a result is the number rounded. -/
theorem isRounded_of_apply (h : l.apply d = some r) : l.IsRounded d r := by
  have hexact (hholds : l.Holds r) : r = d ↔ l.Holds d := by
    refine ⟨fun heq => heq ▸ hholds, fun hd => ?_⟩
    rw [apply_of_holds hd] at h
    exact (Option.some.inj h).symm
  rw [apply_eq] at h
  split at h
  · rename_i hleading
    cases h
    exact isRounded_round hleading hexact
  · rename_i hleading
    split at h
    · rename_i hzero
      exact isRounded_zero hzero hleading (Option.some.inj h).symm hexact
    · cases h

end Limits

end BlockScript.Decimal
