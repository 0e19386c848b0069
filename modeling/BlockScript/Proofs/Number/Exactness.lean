import BlockScript.Execution.Operators
import BlockScript.Proofs.Number.Limits

/-!
# Decimal arithmetic within limits

Sums, differences and products of decimals are those of the rational numbers, with a scale and a
sign of zero of their own, as long as they are within the limits of the operators. A decimal is told
by its number, its scale and whether it is a zero with a minus, so the order of terms or factors
cannot be seen in a result, nor their grouping where the partial results are within the limits.
-/

namespace BlockScript

namespace Decimal

variable {a b c d r r' : Decimal} {e : Int}

/-- The exact sum, at the smaller exponent. It is a zero with a minus just if both terms are. -/
structure IsSum (a b r : Decimal) : Prop where
  toRat : r.toRat = a.toRat + b.toRat
  exponent : r.exponent = min a.exponent b.exponent
  negativeZero : r.IsNegativeZero ↔ a.IsNegativeZero ∧ b.IsNegativeZero

/-- The exact difference, which is a zero with a minus just if a negative zero loses a positive
one. -/
structure IsDifference (a b r : Decimal) : Prop where
  toRat : r.toRat = a.toRat - b.toRat
  exponent : r.exponent = min a.exponent b.exponent
  negativeZero : r.IsNegativeZero ↔ a.IsNegativeZero ∧ b.neg.IsNegativeZero

/-- The exact product, at the sum of the exponents. It has a minus, also if it is zero, just if one
factor has. -/
structure IsProduct (a b r : Decimal) : Prop where
  toRat : r.toRat = a.toRat * b.toRat
  exponent : r.exponent = a.exponent + b.exponent
  negative : r.negative = (a.negative ^^ b.negative)

/-! ## Sums -/

/-- Written with a smaller exponent, a decimal stands for the same number. -/
theorem scaledTo_mul (h : e ≤ d.exponent) : (d.scaledTo e : ℚ) * 10 ^ e = d.toRat := by
  have hshift : ((d.exponent - e).toNat : Int) = d.exponent - e := Int.toNat_sub_of_le h
  have hpower : (10 : ℚ) ^ (d.exponent - e).toNat = 10 ^ (d.exponent - e) := by
    rw [← zpow_natCast, hshift]
  rw [scaledTo, toRat, Int.cast_mul, Int.cast_natCast, cast_powerOfTen, hpower, mul_assoc,
    ← zpow_add₀ (by norm_num), sub_add_cancel]

theorem scaledTo_eq_zero : d.scaledTo e = 0 ↔ d.isZero = true := by
  have hpower : ((powerOfTen (d.exponent - e).toNat : Nat) : Int) ≠ 0 := by
    have hpos : 0 < powerOfTen (d.exponent - e).toNat := Nat.pow_pos (by norm_num)
    omega
  rw [scaledTo, mul_eq_zero, or_iff_left hpower, signed_eq_zero]

theorem scaledTo_nonpos (h : d.negative = true) : d.scaledTo e ≤ 0 := by
  unfold scaledTo signed
  rw [if_pos h, neg_mul]
  exact Int.neg_nonpos_of_nonneg (Int.mul_nonneg (Int.natCast_nonneg _) (Int.natCast_nonneg _))

theorem signed_add (a b : Decimal) : (a.add b).signed =
    a.scaledTo (min a.exponent b.exponent) + b.scaledTo (min a.exponent b.exponent) := by
  let e := min a.exponent b.exponent
  let sum := a.scaledTo e + b.scaledTo e
  have hcoefficient : (a.add b).coefficient = sum.natAbs := rfl
  have hnegative : (a.add b).negative =
      if sum = 0 then a.negative && b.negative else decide (sum < 0) := rfl
  change (a.add b).signed = sum
  unfold signed
  rw [hcoefficient, hnegative]
  split
  · rename_i hsum
    simp [hsum]
  · simp only [decide_eq_true_eq]
    split <;> omega

theorem isZero_add : (a.add b).isZero = true ↔
    a.scaledTo (min a.exponent b.exponent) + b.scaledTo (min a.exponent b.exponent) = 0 := by
  rw [← signed_eq_zero, signed_add]

theorem negative_add (h : (a.add b).isZero = true) :
    (a.add b).negative = (a.negative && b.negative) :=
  if_pos (isZero_add.mp h)

/-- A sum of zero of which both terms have a minus is a sum of zeros. -/
theorem isNegativeZero_add (a b : Decimal) :
    (a.add b).IsNegativeZero ↔ a.IsNegativeZero ∧ b.IsNegativeZero := by
  constructor
  · rintro ⟨hzero, hminus⟩
    rw [negative_add hzero, Bool.and_eq_true] at hminus
    have hleft := scaledTo_nonpos (e := min a.exponent b.exponent) hminus.1
    have hright := scaledTo_nonpos (e := min a.exponent b.exponent) hminus.2
    have hsum := isZero_add.mp hzero
    have hleft' : a.scaledTo (min a.exponent b.exponent) = 0 := by omega
    have hright' : b.scaledTo (min a.exponent b.exponent) = 0 := by omega
    exact ⟨⟨scaledTo_eq_zero.mp hleft', hminus.1⟩, scaledTo_eq_zero.mp hright', hminus.2⟩
  · rintro ⟨⟨hleft, hminus⟩, hright, hminus'⟩
    have hzero : (a.add b).isZero = true := by
      rw [isZero_add, scaledTo_eq_zero.mpr hleft, scaledTo_eq_zero.mpr hright, add_zero]
    exact ⟨hzero, by rw [negative_add hzero, hminus, hminus', Bool.and_self]⟩

theorem isSum_add (a b : Decimal) : IsSum a b (a.add b) := by
  refine ⟨?_, rfl, isNegativeZero_add a b⟩
  have hexponent : (a.add b).exponent = min a.exponent b.exponent := rfl
  rw [toRat, signed_add, hexponent, Int.cast_add, add_mul, scaledTo_mul (min_le_left _ _),
    scaledTo_mul (min_le_right _ _)]

theorem IsSum.unique (h : IsSum a b r) (h' : IsSum a b r') : r = r' :=
  eq_of_toRat (h.toRat.trans h'.toRat.symm) (h.exponent.trans h'.exponent.symm)
    (h.negativeZero.trans h'.negativeZero.symm)

theorem IsSum.symm (h : IsSum a b r) : IsSum b a r :=
  ⟨h.toRat.trans (add_comm ..), h.exponent.trans (min_comm ..), h.negativeZero.trans and_comm⟩

/-- Three terms have one sum, however they are grouped. -/
theorem IsSum.assoc {ab bc : Decimal} (hab : IsSum a b ab) (h : IsSum ab c r)
    (hbc : IsSum b c bc) (h' : IsSum a bc r') : r = r' := by
  refine eq_of_toRat ?_ ?_ ?_
  · rw [h.toRat, hab.toRat, h'.toRat, hbc.toRat, add_assoc]
  · rw [h.exponent, hab.exponent, h'.exponent, hbc.exponent, min_assoc]
  · rw [h.negativeZero, hab.negativeZero, h'.negativeZero, hbc.negativeZero, and_assoc]

/-! ## Differences -/

theorem isDifference_sub (a b : Decimal) : IsDifference a b (a.sub b) := by
  have hsum := isSum_add a b.neg
  refine ⟨?_, hsum.exponent, hsum.negativeZero⟩
  rw [sub, hsum.toRat, toRat_neg, sub_eq_add_neg]

/-! ## Products -/

theorem isProduct_mul (a b : Decimal) : IsProduct a b (a.mul b) := by
  refine ⟨?_, rfl, rfl⟩
  have hsigned : (a.mul b).signed = a.signed * b.signed := by
    unfold signed mul
    cases a.negative <;> cases b.negative <;> simp
  have hexponent : (a.mul b).exponent = a.exponent + b.exponent := rfl
  rw [toRat, hsigned, hexponent, Int.cast_mul, zpow_add₀ (by norm_num), toRat, toRat]
  ring

theorem IsProduct.unique (h : IsProduct a b r) (h' : IsProduct a b r') : r = r' := by
  have hrat : r.toRat = r'.toRat := h.toRat.trans h'.toRat.symm
  have hnegative : r.negative = r'.negative := h.negative.trans h'.negative.symm
  refine eq_of_toRat hrat (h.exponent.trans h'.exponent.symm) ?_
  rw [IsNegativeZero, ← toRat_eq_zero, hrat, hnegative, toRat_eq_zero, IsNegativeZero]

theorem IsProduct.symm (h : IsProduct a b r) : IsProduct b a r :=
  ⟨h.toRat.trans (mul_comm ..), h.exponent.trans (Int.add_comm ..),
    h.negative.trans (Bool.xor_comm ..)⟩

/-- Three factors have one product, however they are grouped. -/
theorem IsProduct.assoc {ab bc : Decimal} (hab : IsProduct a b ab) (h : IsProduct ab c r)
    (hbc : IsProduct b c bc) (h' : IsProduct a bc r') : r = r' := by
  refine h.unique ⟨?_, ?_, ?_⟩
  · rw [h'.toRat, hbc.toRat, hab.toRat, mul_assoc]
  · rw [h'.exponent, hbc.exponent, hab.exponent, Int.add_assoc]
  · rw [h'.negative, hbc.negative, hab.negative, Bool.xor_assoc]

/-! ## Limits -/

/-- The outcome for the exact number `s` under limits: `s` rounded, which is `s` itself if it is
within the limits, or a crash if it is too large. -/
def Limits.Settles (l : Limits) (s : Decimal) : Except Breakdown Value → Prop
  | .ok v => ∃ r, v = .decimal r ∧ l.IsRounded s r ∧ |s.toRat| < l.threshold
  | .error e => e = .crash .decimalOverflow ∧ l.threshold ≤ |s.toRat|

theorem Limits.settles_ofArithmetic (l : Limits) (s : Decimal) :
    l.Settles s (Value.ofArithmetic (l.apply s)) := by
  cases h : l.apply s with
  | none => exact ⟨rfl, apply_eq_none_iff.mp h⟩
  | some r =>
    refine ⟨r, rfl, isRounded_of_apply h, not_le.mp fun hle => ?_⟩
    rw [apply_eq_none_iff.mpr hle] at h
    cases h

end Decimal

namespace Operator

open Decimal

/-- `s` is the exact result of adding, subtracting or multiplying. -/
def IsExact : Operator → Decimal → Decimal → Decimal → Prop
  | add => IsSum
  | sub => IsDifference
  | mul => IsProduct
  | _ => fun _ _ _ => False

/-- The outcome for two operands does not depend on their order. That for three does not depend on
how they are grouped, if the partial results are within the limits. Equal outcomes are equal in all
that can be seen of them, also as text. -/
structure IsLawfulOn (op : Operator) (a b c : Decimal) : Prop where
  comm : op.apply (.decimal a) (.decimal b) = op.apply (.decimal b) (.decimal a)
  assoc : ∀ ab bc, op.IsExact a b ab → op.IsExact b c bc →
    Limits.wide.Holds ab → Limits.wide.Holds bc →
    (do op.apply (← op.apply (.decimal a) (.decimal b)) (.decimal c)) =
      do op.apply (.decimal a) (← op.apply (.decimal b) (.decimal c))

theorem add_decimals (a b : Decimal) : add.apply (.decimal a) (.decimal b) =
    Value.ofArithmetic (Limits.wide.apply (a.add b)) := rfl

theorem mul_decimals (a b : Decimal) : mul.apply (.decimal a) (.decimal b) =
    Value.ofArithmetic (Limits.wide.apply (a.mul b)) := rfl

theorem isLawfulOn_add (a b c : Decimal) : add.IsLawfulOn a b c := by
  refine ⟨?_, fun ab bc hab hbc hleft hright => ?_⟩
  · rw [add_decimals, add_decimals, (isSum_add a b).unique (isSum_add b a).symm]
  · have htotal : ab.add c = a.add bc :=
      hab.assoc (isSum_add ab c) hbc (isSum_add a bc)
    rw [add_decimals, add_decimals, (isSum_add a b).unique hab, (isSum_add b c).unique hbc,
      Limits.apply_of_holds hleft, Limits.apply_of_holds hright]
    change add.apply (.decimal ab) (.decimal c) = add.apply (.decimal a) (.decimal bc)
    rw [add_decimals, add_decimals, htotal]

theorem isLawfulOn_mul (a b c : Decimal) : mul.IsLawfulOn a b c := by
  refine ⟨?_, fun ab bc hab hbc hleft hright => ?_⟩
  · rw [mul_decimals, mul_decimals, (isProduct_mul a b).unique (isProduct_mul b a).symm]
  · have htotal : ab.mul c = a.mul bc :=
      hab.assoc (isProduct_mul ab c) hbc (isProduct_mul a bc)
    rw [mul_decimals, mul_decimals, (isProduct_mul a b).unique hab, (isProduct_mul b c).unique hbc,
      Limits.apply_of_holds hleft, Limits.apply_of_holds hright]
    change mul.apply (.decimal ab) (.decimal c) = mul.apply (.decimal a) (.decimal bc)
    rw [mul_decimals, mul_decimals, htotal]

/-- Addition, subtraction and multiplication of decimals give the exact result, with the scale and
the sign of zero that `IsSum`, `IsDifference` and `IsProduct` say, just if it is within the limits
of the operators; every other one is rounded or too large. Addition and multiplication are
commutative, and associative where the partial results are within the limits, down to the text of
the result. -/
theorem exact_apply (a b c : Decimal) :
    (∀ op ∈ [add, sub, mul], ∃ s, op.IsExact a b s ∧
      Limits.wide.Settles s (op.apply (.decimal a) (.decimal b))) ∧
    add.IsLawfulOn a b c ∧ mul.IsLawfulOn a b c := by
  refine ⟨fun op hop => ?_, isLawfulOn_add a b c, isLawfulOn_mul a b c⟩
  simp only [List.mem_cons, List.not_mem_nil, or_false] at hop
  obtain rfl | rfl | rfl := hop
  · exact ⟨a.add b, isSum_add a b, Limits.wide.settles_ofArithmetic _⟩
  · exact ⟨a.sub b, isDifference_sub a b, Limits.wide.settles_ofArithmetic _⟩
  · exact ⟨a.mul b, isProduct_mul a b, Limits.wide.settles_ofArithmetic _⟩

/-- The square of a number that is small enough is zero, so that the grouping of factors counts. -/
theorem not_isExact_mul_small :
    let a : Decimal := ⟨false, 1, -1152921504606846976⟩
    let b : Decimal := ⟨false, 1, 1152921504606846976⟩
    (∃ r, mul.apply (.decimal a) (.decimal a) = .ok (.decimal r) ∧
      r = ⟨false, 0, -1999999999999999997⟩ ∧ ¬ mul.IsExact a a r) ∧
    (do mul.apply (← mul.apply (.decimal a) (.decimal a)) (.decimal b)) ≠
      (do mul.apply (.decimal a) (← mul.apply (.decimal a) (.decimal b))) := by
  refine ⟨⟨⟨false, 0, -1999999999999999997⟩, by decide +kernel, rfl, fun h => ?_⟩,
    by decide +kernel⟩
  exact absurd h.exponent (by decide)

/-- Terms that cancel leave a zero without a minus, at the smaller scale of the two. -/
example : sub.apply (.decimal ⟨true, 10, -1⟩) (.decimal ⟨true, 100, -2⟩) =
    .ok (.decimal ⟨false, 0, -2⟩) := by decide +kernel

end Operator

end BlockScript
