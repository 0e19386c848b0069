import BlockScript.Proofs.Number.Exactness
import Mathlib.Algebra.Order.Field.Basic
import Mathlib.Data.Rat.Cast.Order
import Mathlib.Tactic.Linarith

/-!
# Division

Integers are divided toward zero. The quotient of two decimals is the nearest tenth to the quotient
of their numbers, of two that are equally near the one with an even number of tenths. Both fail just
if the divisor is zero as a number.
-/

namespace BlockScript

/-! ## Integers -/

/-- `q` is `a / b` without its fraction: as many times as `b` goes into `a` toward zero. -/
structure IsTruncated (a b q : Int) : Prop where
  le : |q * b| ≤ |a|
  lt : |a - q * b| < |b|
  sign : q * b = 0 ∨ (q * b).sign = a.sign

namespace IsTruncated

variable {a b q q' : Int}

theorem tdiv (a : Int) (hb : b ≠ 0) : IsTruncated a b (a.tdiv b) := by
  have hsplit : a.tdiv b * b + a.tmod b = a := by
    rw [Int.mul_comm, Int.mul_tdiv_add_tmod]
  have hsize : (a.tmod b).natAbs = a.natAbs % b.natAbs := Int.natAbs_tmod a b
  have hle : (a.tmod b).natAbs ≤ a.natAbs := hsize ▸ Nat.mod_le _ _
  have hlt : (a.tmod b).natAbs < b.natAbs := hsize ▸ Nat.mod_lt _ (Int.natAbs_pos.mpr hb)
  -- The rest has the sign of `a`, so what is left of `a` without it has that sign too.
  have hpos : 0 ≤ a → 0 ≤ a.tmod b := Int.tmod_nonneg b
  have hneg : a ≤ 0 → a.tmod b ≤ 0 := fun ha => by
    have h := Int.tmod_nonneg b (Int.neg_nonneg_of_nonpos ha)
    rw [Int.neg_tmod] at h
    omega
  refine ⟨?_, ?_, ?_⟩ <;> generalize a.tdiv b * b = p, a.tmod b = r at *
  · rw [Int.abs_eq_natAbs, Int.abs_eq_natAbs]
    omega
  · rw [Int.abs_eq_natAbs, Int.abs_eq_natAbs]
    omega
  · rcases lt_trichotomy p 0 with hp | hp | hp
    · right
      rw [Int.sign_eq_neg_one_of_neg hp, Int.sign_eq_neg_one_of_neg (by omega)]
    · exact .inl hp
    · right
      rw [Int.sign_eq_one_of_pos hp, Int.sign_eq_one_of_pos (by omega)]

/-- What is left over has the sign of `a`. -/
theorem rest (h : IsTruncated a b q) : (0 ≤ a → 0 ≤ a - q * b) ∧ (a ≤ 0 → a - q * b ≤ 0) := by
  have hle := h.le
  have hsign := h.sign
  rw [Int.abs_eq_natAbs, Int.abs_eq_natAbs] at hle
  generalize q * b = p at hle hsign ⊢
  rcases lt_trichotomy a 0 with ha | rfl | ha
  · rw [Int.sign_eq_neg_one_of_neg ha, Int.sign_eq_neg_one_iff_neg] at hsign
    omega
  · omega
  · rw [Int.sign_eq_one_of_pos ha, Int.sign_eq_one_iff_pos] at hsign
    omega

theorem unique (h : IsTruncated a b q) (h' : IsTruncated a b q') : q = q' := by
  by_contra hne
  have hfar : b.natAbs ≤ ((q - q') * b).natAbs := by
    rw [Int.natAbs_mul]
    exact Nat.le_mul_of_pos_left _ (Int.natAbs_pos.mpr (sub_ne_zero.mpr hne))
  have hrest := h.rest
  have hrest' := h'.rest
  have hlt := h.lt
  have hlt' := h'.lt
  rw [Int.abs_eq_natAbs, Int.abs_eq_natAbs] at hlt hlt'
  rw [Int.sub_mul] at hfar
  generalize q * b = p, q' * b = p' at hfar hrest hrest' hlt hlt'
  omega

end IsTruncated

/-! ## Decimals -/

namespace Decimal

variable {a b : Decimal}

/-- The decimal with the other sign, where zero has none. -/
def opposite (d : Decimal) : Decimal := { d with negative := !d.isZero && !d.negative }

/-- The quotient of the coefficients in tenths, before it is rounded. -/
def tenths (a b : Decimal) : ℚ :=
  let shift := a.exponent - b.exponent + 1
  ((a.coefficient * powerOfTen shift.toNat : Nat) : ℚ) /
    (b.coefficient * powerOfTen (-shift).toNat : Nat)

theorem zpow_ten_eq_div (e : Int) : (10 : ℚ) ^ e = 10 ^ e.toNat / 10 ^ (-e).toNat := by
  rw [← zpow_natCast, ← zpow_natCast, ← zpow_sub₀ (by norm_num), Int.toNat_sub_toNat_neg]

theorem tenths_eq (a b : Decimal) : a.tenths b =
    a.coefficient / b.coefficient * 10 ^ (a.exponent - b.exponent + 1) := by
  rw [tenths, Nat.cast_mul, Nat.cast_mul, cast_powerOfTen, cast_powerOfTen, mul_div_mul_comm,
    ← zpow_ten_eq_div]

/-- Ten times the quotient of the numbers is that of the coefficients, with the sign of both. -/
theorem ten_mul_toRat_div (a b : Decimal) :
    10 * a.toRat / b.toRat = if a.negative = b.negative then a.tenths b else -a.tenths b := by
  have hsize : 10 * (a.coefficient * (10 : ℚ) ^ a.exponent) / (b.coefficient * 10 ^ b.exponent) =
      a.tenths b := by
    have hpower := zpow_ten_ne_zero b.exponent
    rw [tenths_eq, zpow_add_one₀ (by norm_num), zpow_sub₀ (by norm_num)]
    field_simp
  unfold toRat signed
  cases a.negative <;> cases b.negative <;> simp [← hsize, neg_div, div_neg]

theorem signed_div (a b : Decimal) :
    (a.div b).signed = if a.negative = b.negative then ((a.div b).coefficient : Int)
      else -(a.div b).coefficient := by
  have hnegative : (a.div b).negative =
      ((a.div b).coefficient != 0 && (a.negative ^^ b.negative)) := rfl
  unfold signed
  rw [hnegative]
  by_cases hzero : (a.div b).coefficient = 0
  · simp [hzero]
  · cases a.negative <;> cases b.negative <;> simp [hzero]

theorem isNearestEven_div (a : Decimal) (hb : b.isZero ≠ true) :
    IsNearestEven (10 * a.toRat / b.toRat) (a.div b).signed := by
  have hden : 0 < b.coefficient * powerOfTen (-(a.exponent - b.exponent + 1)).toNat :=
    Nat.mul_pos (Nat.pos_of_ne_zero (by simpa [isZero] using hb)) (Nat.pow_pos (by norm_num))
  have hnearest : IsNearestEven (a.tenths b) (a.div b).coefficient :=
    Number.isNearestEven_roundHalfEven _ hden
  rw [ten_mul_toRat_div, signed_div]
  split
  · exact hnearest
  · exact hnearest.neg

/-- A quotient with a factor of the other sign in it is the same but for the sign. -/
theorem div_eq_opposite {a' b' : Decimal}
    (hcoefficient : (a'.div b').coefficient = (a.div b).coefficient)
    (hsign : (a'.negative ^^ b'.negative) = !(a.negative ^^ b.negative)) :
    a'.div b' = (a.div b).opposite := by
  have hnegative (a b : Decimal) : (a.div b).negative =
      ((a.div b).coefficient != 0 && (a.negative ^^ b.negative)) := rfl
  have heq : (a'.div b').negative = (a.div b).opposite.negative := by
    rw [hnegative, hcoefficient, hsign]
    change _ = (!(a.div b).isZero && !(a.div b).negative)
    rw [hnegative, isZero]
    cases hzero : (a.div b).coefficient == 0 <;> simp [bne, hzero]
  exact mk.injEq .. ▸ ⟨heq, hcoefficient, rfl⟩

theorem neg_div (a b : Decimal) : a.neg.div b = (a.div b).opposite :=
  div_eq_opposite rfl (by simp [neg])

theorem div_neg (a b : Decimal) : a.div b.neg = (a.div b).opposite :=
  div_eq_opposite rfl (by simp [neg])

end Decimal

namespace Operator

open Decimal

theorem div_integers (a : Int) {b : Int} (hb : b ≠ 0) :
    div.apply (.integer a) (.integer b) = .ok (.integer (a.tdiv b)) := if_neg hb

theorem div_decimals (x : Decimal) {y : Decimal} (hy : y.isZero ≠ true) :
    div.apply (.decimal x) (.decimal y) = .ok (.decimal (x.div y)) := if_neg hy

/-- A division that gives a value for every divisor but zero fails for zero only. -/
theorem fails_iff {u v : Value} {P : Prop} {w : Value}
    (hzero : P → div.apply u v = .error (.cause .divisionByZero))
    (hvalue : ¬P → div.apply u v = .ok w) :
    (∃ cause, div.apply u v = .error (.cause cause) ∧ cause.family = .arithmetic) ↔ P := by
  refine ⟨fun ⟨cause, herror, _⟩ => by_contra fun hP => ?_, fun hP => ⟨_, hzero hP, rfl⟩⟩
  rw [hvalue hP] at herror
  cases herror

/-- Division fails just if the divisor is zero as a number. Else integers are divided toward zero
and decimals rounded to the nearest tenth, where a zero has no minus. An operand of the other sign
changes the sign of the result and nothing else. -/
theorem apply_div (a b : Int) (x y : Decimal) :
    ((∃ cause, div.apply (.integer a) (.integer b) = .error (.cause cause) ∧
      cause.family = .arithmetic) ↔ b = 0) ∧
    (b ≠ 0 → ∃ q, div.apply (.integer a) (.integer b) = .ok (.integer q) ∧
      (∀ k, IsTruncated a b k ↔ k = q) ∧
      div.apply (.integer (-a)) (.integer b) = .ok (.integer (-q)) ∧
      div.apply (.integer a) (.integer (-b)) = .ok (.integer (-q))) ∧
    ((∃ cause, div.apply (.decimal x) (.decimal y) = .error (.cause cause) ∧
      cause.family = .arithmetic) ↔ y.toRat = 0) ∧
    (y.toRat ≠ 0 → ∃ r, div.apply (.decimal x) (.decimal y) = .ok (.decimal r) ∧
      r.exponent = -1 ∧
      (∀ n, IsNearestEven (10 * x.toRat / y.toRat) n ↔ n = r.signed) ∧
      (r.isZero = true → r.negative = false) ∧
      div.apply (.decimal x.neg) (.decimal y) = .ok (.decimal r.opposite) ∧
      div.apply (.decimal x) (.decimal y.neg) = .ok (.decimal r.opposite)) := by
  refine ⟨fails_iff (fun hb => if_pos hb) (div_integers a), fun hb => ?_, ?_, fun hy => ?_⟩
  · have htruncated : IsTruncated a b (a.tdiv b) := .tdiv a hb
    refine ⟨a.tdiv b, div_integers a hb, fun k => ⟨fun h => h.unique htruncated, fun h => ?_⟩,
      ?_, ?_⟩
    · rwa [h]
    · rw [div_integers (-a) hb, Int.neg_tdiv]
    · rw [div_integers a (Int.neg_ne_zero.mpr hb), Int.tdiv_neg]
  · rw [toRat_eq_zero]
    exact fails_iff (fun hy => if_pos hy) (div_decimals x)
  · have hy' : y.isZero ≠ true := fun h => hy (toRat_eq_zero.mpr h)
    have hnearest := isNearestEven_div x hy'
    refine ⟨x.div y, div_decimals x hy', rfl, fun n => ⟨fun h => h.unique hnearest, fun h => ?_⟩,
      fun hzero => ?_, ?_, ?_⟩
    · rwa [h]
    · have hcoefficient : ((x.div y).coefficient != 0) = false := by simpa [isZero] using hzero
      change (((x.div y).coefficient != 0) && _) = false
      rw [hcoefficient, Bool.false_and]
    · rw [div_decimals x.neg hy', Decimal.neg_div]
    · rw [div_decimals x (y := y.neg) hy', Decimal.div_neg]

/-- A quotient below zero goes up to the next integer. One halfway between two tenths goes to the
even one. -/
theorem apply_div_negative :
    (∀ k, IsTruncated (-7) 2 k ↔ k = -3) ∧
    IsNearestEven (10 * toRat ⟨true, 1, 0⟩ / toRat ⟨false, 400, -2⟩) (-2) := by
  obtain ⟨-, hintegers, -, hdecimals⟩ := apply_div (-7) 2 ⟨true, 1, 0⟩ ⟨false, 400, -2⟩
  constructor
  · obtain ⟨q, hq, htruncated, -⟩ := hintegers (by decide)
    cases hq.symm.trans (rfl : _ = Except.ok (Value.integer (-3)))
    exact htruncated
  · obtain ⟨r, hr, -, hnearest, -⟩ := hdecimals (mt toRat_eq_zero.mp (by decide))
    cases hr.symm.trans (rfl : _ = Except.ok (Value.decimal ⟨true, 2, -1⟩))
    exact (hnearest _).mpr rfl

end Operator

end BlockScript
