import BlockScript.Number.Decimal
import Mathlib.Algebra.Order.Field.Basic
import Mathlib.Data.Rat.Cast.Order
import Mathlib.Tactic.FieldSimp
import Mathlib.Tactic.Linarith
import Mathlib.Tactic.NormNum

/-!
# Decimals as rational numbers

The number that a decimal stands for, and the integers nearest to a number. A decimal is told by its
number, its scale and whether it is a zero with a minus.
-/

namespace BlockScript

/-! ## Rounding -/

/-- The integer nearest to a rational number; of two that are equally near, the even one. -/
def IsNearestEven (x : ℚ) (n : Int) : Prop :=
  ∀ k : Int, k ≠ n → |x - n| < |x - k| ∨ |x - n| = |x - k| ∧ Even n

namespace IsNearestEven

variable {x : ℚ} {m n : Int}

/-- Whatever is at most half a unit away is nearest, if it is even at half a unit. -/
theorem of_abs_le (h : |x - n| ≤ 1 / 2) (heven : |x - n| = 1 / 2 → Even n) : IsNearestEven x n := by
  intro k hk
  have hunit : (1 : ℚ) ≤ |(n : ℚ) - k| := by
    have hne : n - k ≠ 0 := sub_ne_zero.mpr hk.symm
    exact_mod_cast Int.one_le_abs hne
  have htriangle : |(n : ℚ) - k| ≤ |x - n| + |x - k| := by
    have h := abs_sub_le (n : ℚ) x k
    rwa [abs_sub_comm (n : ℚ) x] at h
  rcases lt_or_eq_of_le h with hlt | heq
  · left
    linarith
  · rcases lt_or_eq_of_le (show |x - n| ≤ |x - k| by linarith) with hlt | heq'
    · exact .inl hlt
    · exact .inr ⟨heq', heven heq⟩

/-- There is one such integer only: between two even ones at the same distance is a nearer one. -/
theorem unique (hm : IsNearestEven x m) (hn : IsNearestEven x n) : m = n := by
  by_contra hne
  have hsame : |x - m| = |x - n| ∧ Even m ∧ Even n := by
    rcases hm n (Ne.symm hne) with hlt | ⟨heq, hem⟩ <;> rcases hn m hne with hlt' | ⟨heq', hen⟩
    · exact absurd hlt (lt_asymm hlt')
    · exact absurd heq'.symm (ne_of_lt hlt)
    · exact absurd heq.symm (ne_of_lt hlt')
    · exact ⟨heq, hem, hen⟩
  obtain ⟨heq, ⟨i, rfl⟩, ⟨j, rfl⟩⟩ := hsame
  have hmiddle : x = (i + j : Int) := by
    rcases abs_eq_abs.mp heq with h | h
    · exact absurd (by exact_mod_cast (sub_right_inj.mp h)) hne
    · push_cast at h ⊢
      linarith
  have hzero : |x - (i + j : Int)| = 0 := by rw [hmiddle, sub_self, abs_zero]
  have hij : i ≠ j := fun h => hne (by rw [h])
  have hpos : 0 < |x - (i + i : Int)| := by
    rw [abs_pos, hmiddle, sub_ne_zero]
    intro h
    have hcast : i + j = i + i := by exact_mod_cast h
    omega
  rcases hm (i + j) (by omega) with hlt | ⟨heq', -⟩
  · rw [hzero] at hlt
    exact absurd hlt (not_lt.mpr (abs_nonneg _))
  · rw [heq', hzero] at hpos
    exact lt_irrefl _ hpos

theorem of_lt_half {f : ℚ} (hzero : 0 ≤ f) (h : f < 1 / 2) : IsNearestEven (n + f) n := by
  have hdistance : |(n : ℚ) + f - n| = f := by rw [add_sub_cancel_left, abs_of_nonneg hzero]
  exact .of_abs_le (hdistance.trans_le h.le) fun heq => absurd (hdistance.symm.trans heq) h.ne

theorem of_half_lt {f : ℚ} (hone : f ≤ 1) (h : 1 / 2 < f) : IsNearestEven (n + f) (n + 1) := by
  have hdistance : |(n : ℚ) + f - (n + 1 : Int)| = 1 - f := by
    rw [Int.cast_add, Int.cast_one, add_sub_add_left_eq_sub, abs_sub_comm,
      abs_of_nonneg (sub_nonneg.mpr hone)]
  have hlt : 1 - f < 1 / 2 := by linarith
  exact .of_abs_le (hdistance.trans_le hlt.le) fun heq => absurd (hdistance.symm.trans heq) hlt.ne

/-- Halfway between two integers, the rest modulo two leads to the even one. -/
theorem of_half (n : Int) : IsNearestEven (n + 1 / 2) (n + n % 2) := by
  rcases Int.emod_two_eq_zero_or_one n with heven | hodd
  · have hdistance : |(n : ℚ) + 1 / 2 - n| = 1 / 2 := by
      rw [add_sub_cancel_left, abs_of_pos one_half_pos]
    rw [heven, add_zero]
    exact .of_abs_le hdistance.le fun _ => Int.even_iff.mpr heven
  · have hdistance : |(n : ℚ) + 1 / 2 - (n + 1 : Int)| = 1 / 2 := by
      rw [Int.cast_add, Int.cast_one, add_sub_add_left_eq_sub, abs_sub_comm]
      norm_num
    rw [hodd]
    refine .of_abs_le hdistance.le fun _ => ?_
    rw [Int.even_add_one, Int.not_even_iff]
    exact hodd

theorem neg (h : IsNearestEven x n) : IsNearestEven (-x) (-n) := by
  intro k hk
  have hreflect (j : Int) : |-x - ((-j : Int) : ℚ)| = |x - j| := by
    rw [Int.cast_neg, ← neg_sub', abs_neg]
  have hk' : -k ≠ n := fun heq => hk (by omega)
  have hnear := h (-k) hk'
  rwa [← hreflect n, ← hreflect (-k), neg_neg, ← even_neg] at hnear

end IsNearestEven

theorem Number.isNearestEven_roundHalfEven (num : Nat) {den : Nat} (hden : 0 < den) :
    IsNearestEven ((num : ℚ) / den) (roundHalfEven num den : Nat) := by
  have hpos : (0 : ℚ) < den := by exact_mod_cast hden
  let q := num / den
  let r := num % den
  have hsplit : (num : ℚ) / den = (q : Int) + (r : ℚ) / den := by
    have hnum : (num : ℚ) = den * q + r := by exact_mod_cast (Nat.div_add_mod num den).symm
    rw [hnum, Int.cast_natCast]
    field_simp
  rw [hsplit]
  unfold roundHalfEven
  dsimp only
  split
  · rename_i hlt
    have hbelow : (r : ℚ) / den < 1 / 2 := by
      rw [div_lt_div_iff₀ hpos two_pos, mul_comm, one_mul]
      exact_mod_cast hlt
    exact .of_lt_half (by positivity) hbelow
  · split
    · rename_i hlt
      have habove : 1 / 2 < (r : ℚ) / den := by
        rw [div_lt_div_iff₀ two_pos hpos, mul_comm _ 2, one_mul]
        exact_mod_cast hlt
      have hone : (r : ℚ) / den ≤ 1 :=
        (div_le_one hpos).mpr (by exact_mod_cast (Nat.mod_lt num hden).le)
      exact .of_half_lt hone habove
    · rename_i hle hge
      have htie : (r : ℚ) / den = 1 / 2 := by
        have h : 2 * r = den := by omega
        rw [div_eq_div_iff hpos.ne' two_ne_zero, mul_comm _ 2, one_mul]
        exact_mod_cast h
      rw [htie]
      exact .of_half q

namespace Number

variable {m num den : Nat}

/-- Less than half a unit is rounded away. -/
theorem roundHalfEven_eq_zero (h : 2 * num < den) : roundHalfEven num den = 0 := by
  have hlt : num < den := by omega
  rw [roundHalfEven, Nat.mod_eq_of_lt hlt, if_pos h, Nat.div_eq_of_lt hlt]

theorem roundHalfEven_mul (m : Nat) (hden : 0 < den) : roundHalfEven (m * den) den = m := by
  rw [roundHalfEven, Nat.mul_mod_left, if_pos (by omega), Nat.mul_div_cancel _ hden]

theorem div_le_roundHalfEven (num den : Nat) : num / den ≤ roundHalfEven num den := by
  unfold roundHalfEven
  dsimp only
  split <;> [skip; split] <;> omega

theorem roundHalfEven_le_succ (num den : Nat) : roundHalfEven num den ≤ num / den + 1 := by
  unfold roundHalfEven
  dsimp only
  split <;> [skip; split] <;> omega

theorem le_roundHalfEven (hden : 0 < den) (h : m * den ≤ num) : m ≤ roundHalfEven num den :=
  ((Nat.le_div_iff_mul_le hden).mpr h).trans (div_le_roundHalfEven num den)

theorem roundHalfEven_le (hden : 0 < den) (h : num < m * den) : roundHalfEven num den ≤ m :=
  (roundHalfEven_le_succ num den).trans ((Nat.div_lt_iff_lt_mul hden).mpr h)

/-- An even number is reached from half a unit below on. -/
theorem even_le_roundHalfEven_iff (num : Nat) (hden : 0 < den) (heven : Even m) :
    m ≤ roundHalfEven num den ↔ 2 * (m * den) ≤ 2 * num + den := by
  have hsplit : num = num / den * den + num % den := (Nat.div_add_mod' num den).symm
  have hrest : num % den < den := Nat.mod_lt num hden
  rcases Nat.lt_trichotomy m (num / den + 1) with hlt | heq | hgt
  · have hscaled : m * den ≤ num / den * den := Nat.mul_le_mul_right den (Nat.le_of_lt_succ hlt)
    have hle := (Nat.le_of_lt_succ hlt).trans (div_le_roundHalfEven num den)
    exact iff_of_true hle (by omega)
  · have hodd : num / den % 2 = 1 := by
      rw [Nat.even_iff] at heven
      omega
    have hscaled : (num / den + 1) * den = num / den * den + den := Nat.add_one_mul ..
    rw [heq, hscaled, roundHalfEven]
    split <;> [skip; split] <;> omega
  · have hscaled : (num / den + 2) * den ≤ m * den := Nat.mul_le_mul_right den hgt
    have hle := roundHalfEven_le_succ num den
    rw [Nat.add_mul] at hscaled
    exact iff_of_false (by omega) (by omega)

end Number

/-! ## The number of a decimal -/

namespace Decimal

variable {d r r' : Decimal}

/-- The rational number that a decimal stands for. -/
def toRat (d : Decimal) : ℚ := d.signed * 10 ^ d.exponent

/-- Zero with a minus, at whatever scale. -/
def IsNegativeZero (d : Decimal) : Prop := d.isZero = true ∧ d.negative = true

theorem zpow_ten_ne_zero (e : Int) : (10 : ℚ) ^ e ≠ 0 := zpow_ne_zero e (by norm_num)

theorem signed_neg (d : Decimal) : d.neg.signed = -d.signed := by
  unfold signed neg
  cases d.negative <;> simp

theorem toRat_neg (d : Decimal) : d.neg.toRat = -d.toRat := by
  have hexponent : d.neg.exponent = d.exponent := rfl
  rw [toRat, signed_neg, hexponent, toRat, Int.cast_neg, neg_mul]

theorem natAbs_signed (d : Decimal) : d.signed.natAbs = d.coefficient := by
  unfold signed
  split
  · rw [Int.natAbs_neg, Int.natAbs_natCast]
  · rw [Int.natAbs_natCast]

theorem signed_eq_zero : d.signed = 0 ↔ d.isZero = true := by
  rw [isZero, beq_iff_eq, ← natAbs_signed, Int.natAbs_eq_zero]

theorem toRat_eq_zero : d.toRat = 0 ↔ d.isZero = true := by
  rw [toRat, mul_eq_zero, or_iff_left (zpow_ten_ne_zero d.exponent), Int.cast_eq_zero,
    signed_eq_zero]

/-- A decimal that is not zero has a minus just if its coefficient with sign is negative. -/
theorem negative_eq_of_ne_zero (h : d.isZero ≠ true) : d.negative = decide (d.signed < 0) := by
  have hcoefficient : d.coefficient ≠ 0 := by simpa [isZero] using h
  unfold signed
  cases d.negative
  · simp
  · simpa using Nat.pos_of_ne_zero hcoefficient

/-- The number, the scale and the sign of zero tell a decimal. -/
theorem eq_of_toRat (hrat : r.toRat = r'.toRat) (hexponent : r.exponent = r'.exponent)
    (hzero : r.IsNegativeZero ↔ r'.IsNegativeZero) : r = r' := by
  have hsigned : r.signed = r'.signed := by
    unfold toRat at hrat
    rw [hexponent] at hrat
    exact Int.cast_injective (mul_right_cancel₀ (zpow_ten_ne_zero _) hrat)
  have hcoefficient : r.coefficient = r'.coefficient := by
    rw [← natAbs_signed, hsigned, natAbs_signed]
  have hiszero : r.isZero = r'.isZero := congrArg (· == 0) hcoefficient
  have hnegative : r.negative = r'.negative := by
    by_cases h : r.isZero = true
    · have h' : r'.isZero = true := hiszero ▸ h
      have hsign : r.negative = true ↔ r'.negative = true := by
        simpa [IsNegativeZero, h, h'] using hzero
      exact Bool.eq_iff_iff.mpr hsign
    · rw [negative_eq_of_ne_zero h, hsigned, negative_eq_of_ne_zero (hiszero ▸ h)]
  obtain ⟨n, k, e⟩ := r
  exact Decimal.mk.injEq .. ▸ ⟨hnegative, hcoefficient, hexponent⟩

theorem cast_powerOfTen (n : Nat) : (powerOfTen n : ℚ) = 10 ^ n := by
  have hpower : powerOfTen n = 10 ^ n := rfl
  rw [hpower, Nat.cast_pow, Nat.cast_ofNat]

theorem abs_toRat (d : Decimal) : |d.toRat| = d.coefficient * 10 ^ d.exponent := by
  have hpower : (0 : ℚ) < 10 ^ d.exponent := zpow_pos (by norm_num) _
  rw [toRat, abs_mul, abs_of_pos hpower, ← Int.cast_abs, Int.abs_eq_natAbs, natAbs_signed,
    Int.cast_natCast]

end Decimal

end BlockScript
