import BlockScript.Proofs.Value.Order
import BlockScript.Store.Initial

/-!
# Absolute values

The absolute value of a decimal is taken within limits that are narrower than those of sums,
differences and products. So it is exact for just the decimals within these limits. Every other one
is rounded to the nearest number that has the places left, or is too large for a result.
-/

namespace BlockScript

namespace Decimal

variable {d r : Decimal}

/-- The decimal without its sign. -/
def unsigned (d : Decimal) : Decimal := { d with negative := false }

theorem toRat_unsigned (d : Decimal) : d.unsigned.toRat = |d.toRat| := by
  have hplus : |d.unsigned.toRat| = d.unsigned.toRat := abs_toRat_of_not_negative nofun
  rw [← hplus, abs_toRat, abs_toRat]
  rfl

/-- `r` is `d` without its sign, in all that can be seen of it. -/
structure IsMagnitude (d r : Decimal) : Prop where
  negative : r.negative = false
  coefficient : r.coefficient = d.coefficient
  exponent : r.exponent = d.exponent
  same : 0 ≤ d.toRat → Operator.eq.Affirms (.decimal r) (.decimal d)
  cancels : d.toRat < 0 → ∃ sum, Operator.add.apply (.decimal r) (.decimal d) = .ok sum ∧
    Operator.eq.Affirms sum (.decimal ⟨false, 0, -1⟩)
  text : (Value.decimal d).text = (if d.negative then "-" else "") ++ (Value.decimal r).text

theorem IsMagnitude.eq_unsigned (h : d.IsMagnitude r) : r = d.unsigned := by
  obtain ⟨negative, coefficient, exponent⟩ := r
  cases h.negative
  cases h.coefficient
  cases h.exponent
  rfl

theorem affirms_eq_iff {a b : Decimal} :
    Operator.eq.Affirms (.decimal a) (.decimal b) ↔ a.toRat = b.toRat := by
  rw [Operator.affirms_iff rfl (Value.ranked_decimal a b) (Value.ranked_decimal b a)]
  simp [Operator.Relates, Value.rank]

theorem toText_unsigned (d : Decimal) :
    d.toText = (if d.negative then "-" else "") ++ d.unsigned.toText := by
  have hunsigned : d.unsigned.toText = String.ofList d.digits := rfl
  rw [hunsigned, toText]
  cases d.negative
  · simp
  · have hminus : "-" = String.ofList ['-'] := rfl
    rw [if_pos rfl, if_pos rfl, hminus, ← String.ofList_append]
    rfl

/-- What is within the limits of absolute values is far from those of sums. -/
theorem holds_wide_of_isZero {s : Decimal} (h : s.isZero = true)
    (hleast : -1000026 ≤ s.exponent) (hgreatest : s.exponent ≤ 999999) : Limits.wide.Holds s := by
  refine ⟨(digitCount_of_isZero h).trans_le (by decide), ?_, ?_⟩
  · exact le_trans (by decide) hleast
  · rw [leading_of_isZero h]
    exact hgreatest.trans (by decide)

theorem isMagnitude_unsigned (h : Limits.narrow.Holds d) : d.IsMagnitude d.unsigned := by
  refine ⟨rfl, rfl, rfl, fun hnonneg => ?_, fun hneg => ?_, d.toText_unsigned⟩
  · rw [affirms_eq_iff, toRat_unsigned, abs_of_nonneg hnonneg]
  · have hsum : (d.unsigned.add d).toRat = 0 := by
      rw [(isSum_add d.unsigned d).toRat, toRat_unsigned, abs_of_neg hneg, neg_add_cancel]
    have hexponent : (d.unsigned.add d).exponent = d.exponent := Int.min_self _
    have hleading : d.exponent ≤ d.leading := by
      have hpositive := d.digitCount_pos
      unfold leading
      omega
    have hholds : Limits.wide.Holds (d.unsigned.add d) :=
      holds_wide_of_isZero (toRat_eq_zero.mp hsum) (hexponent ▸ h.exponent)
        (hexponent ▸ hleading.trans h.leading)
    have hzero : toRat ⟨false, 0, -1⟩ = 0 := toRat_eq_zero.mpr rfl
    refine ⟨.decimal (d.unsigned.add d), ?_, affirms_eq_iff.mpr (hsum.trans hzero.symm)⟩
    rw [Operator.add_decimals, Limits.apply_of_holds hholds, Value.ofArithmetic]

end Decimal

open Decimal

/-- The method `abs` of decimals takes the sign away and then keeps to its limits, of 28 digits and
of exponents that are not too small and not too great. It is exact just for the decimals that this
leaves alone. -/
theorem Native.decimalAbs_exact_iff (d : Decimal) :
    (∃ f, Store.initial.lookupMethod .decimal "abs" 0 = .ok f ∧
      (Store.initial.function f).body = .native decimalAbs) ∧
    Limits.narrow.Settles d.unsigned (decimalAbs [.decimal d]) ∧
    ((∃ r, decimalAbs [.decimal d] = .ok (.decimal r) ∧ d.IsMagnitude r) ↔
      d.digitCount ≤ 28 ∧ -1000026 ≤ d.exponent ∧ d.leading ≤ 999999) := by
  have habs : decimalAbs [.decimal d] = Value.ofArithmetic (Limits.narrow.apply d.unsigned) := rfl
  refine ⟨⟨_, rfl, rfl⟩, habs ▸ Limits.settles_ofArithmetic _ _, ?_⟩
  rw [habs]
  constructor
  · rintro ⟨r, hr, hmagnitude⟩
    cases h : Limits.narrow.apply d.unsigned with
    | none =>
      rw [h] at hr
      cases hr
    | some r' =>
      rw [h] at hr
      cases hr
      have hholds := (Limits.isRounded_of_apply h).exact.mp hmagnitude.eq_unsigned
      exact ⟨hholds.digits, hholds.exponent, hholds.leading⟩
  · rintro ⟨hdigits, hexponent, hleading⟩
    have hholds : Limits.narrow.Holds d := ⟨hdigits, hexponent, hleading⟩
    have hunsigned : Limits.narrow.Holds d.unsigned := ⟨hdigits, hexponent, hleading⟩
    refine ⟨d.unsigned, ?_, isMagnitude_unsigned hholds⟩
    rw [Limits.apply_of_holds hunsigned, Value.ofArithmetic]

/-- The last of 29 digits is lost, and a number of more than a million digits before the point is
too large. -/
theorem Native.decimalAbs_inexact :
    (∃ r, decimalAbs [.decimal ⟨true, 12345678901234567890123456789, -1⟩] = .ok (.decimal r) ∧
      r = ⟨false, 1234567890123456789012345679, 0⟩ ∧
      ¬ IsMagnitude ⟨true, 12345678901234567890123456789, -1⟩ r) ∧
    decimalAbs [.decimal ⟨false, 1, 1000000⟩] = .error (.crash .decimalOverflow) :=
  ⟨⟨⟨false, 1234567890123456789012345679, 0⟩, by decide +kernel, rfl,
    fun h => absurd h.exponent (by decide)⟩, by decide +kernel⟩

end BlockScript
