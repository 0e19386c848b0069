import BlockScript.Proofs.Number.Exactness
import BlockScript.Proofs.Soundness.Values
import Mathlib.Algebra.Order.Ring.Rat
import Mathlib.Data.Char
import Mathlib.Data.List.Lex
import Mathlib.Data.Prod.Lex

/-!
# The order of values

Within one kind the six comparisons are those of a linear order: numbers go by size, characters by
code point, strings by the first character in which they differ. What is equal has the same place in
this order, so decimals may be equal though their scales or the signs of their zeros differ.
-/

namespace BlockScript

namespace Decimal

variable {a b d : Decimal}

theorem toRat_pos_iff : 0 < d.toRat ↔ 0 < d.signed := by
  have hpower : (0 : ℚ) < 10 ^ d.exponent := zpow_pos (by norm_num) _
  rw [toRat, mul_pos_iff_of_pos_right hpower, Int.cast_pos]

theorem toRat_neg_iff : d.toRat < 0 ↔ d.signed < 0 := by
  rw [← neg_pos, ← toRat_neg, toRat_pos_iff, signed_neg, Int.neg_pos]

/-- Zero lies between the two numbers, or is one of them. -/
def AreApart (a b : Decimal) : Prop :=
  a.signed ≤ 0 ∧ 0 ≤ b.signed ∨ b.signed ≤ 0 ∧ 0 ≤ a.signed

theorem AreApart.symm (h : AreApart a b) : AreApart b a := Or.symm h

/-- Two numbers with zero between them are ordered as their coefficients are. -/
theorem AreApart.signed_lt_iff (h : AreApart a b) : a.signed < b.signed ↔ a.toRat < b.toRat := by
  have hsigned : a.signed < b.signed ↔ a.signed < 0 ∨ 0 < b.signed := by
    unfold AreApart at h
    omega
  have hrat : a.toRat < b.toRat ↔ a.toRat < 0 ∨ 0 < b.toRat := by
    rw [AreApart, ← not_lt, ← not_lt, ← not_lt, ← not_lt, ← toRat_pos_iff, ← toRat_neg_iff,
      ← toRat_pos_iff, ← toRat_neg_iff, not_lt, not_lt, not_lt, not_lt] at h
    constructor
    · intro hlt
      by_contra hboth
      rw [not_or, not_lt, not_lt] at hboth
      exact absurd hlt (not_lt.mpr (hboth.2.trans hboth.1))
    · rintro (hneg | hpos)
      · obtain ⟨-, hnonneg⟩ | ⟨-, hnonneg⟩ := h
        · exact hneg.trans_le hnonneg
        · exact absurd hneg (not_lt.mpr hnonneg)
      · obtain ⟨hnonpos, -⟩ | ⟨hnonpos, -⟩ := h
        · exact hnonpos.trans_lt hpos
        · exact absurd hpos (not_lt.mpr hnonpos)
  rw [hsigned, hrat, toRat_neg_iff, toRat_pos_iff]

theorem areApart_of (h : (a.isZero || b.isZero || a.negative != b.negative) = true) :
    AreApart a b := by
  unfold AreApart signed
  simp only [isZero, Bool.or_eq_true, beq_iff_eq] at h
  cases ha : a.negative <;> cases hb : b.negative <;> simp [ha, hb] at h ⊢
  all_goals omega

theorem compare_congr {m n : Int} {x y : ℚ} (hlt : m < n ↔ x < y) (hgt : n < m ↔ y < x) :
    compare m n = compare x y := by
  rcases lt_trichotomy m n with h | h | h
  · rw [compare_lt_iff_lt.mpr h, compare_lt_iff_lt.mpr (hlt.mp h)]
  · have heq : x = y :=
      le_antisymm (not_lt.mp (mt hgt.mpr h.not_gt)) (not_lt.mp (mt hlt.mpr h.not_lt))
    rw [compare_eq_iff_eq.mpr h, compare_eq_iff_eq.mpr heq]
  · rw [compare_gt_iff_gt.mpr h, compare_gt_iff_gt.mpr (hgt.mp h)]

theorem abs_toRat_of_negative (h : d.negative = true) : |d.toRat| = -d.toRat := by
  rw [abs_toRat, toRat, signed, if_pos h, Int.cast_neg, Int.cast_natCast, neg_mul, neg_neg]

theorem abs_toRat_of_not_negative (h : ¬ d.negative = true) : |d.toRat| = d.toRat := by
  rw [abs_toRat, toRat, signed, if_neg h, Int.cast_natCast]

/-- The signs aside, a number is less than one with its first digit in a greater place. -/
theorem abs_toRat_lt_of_leading_lt (hb : b.isZero ≠ true) (h : a.leading < b.leading) :
    |a.toRat| < |b.toRat| :=
  a.abs_toRat_lt.trans_le (reaches_iff_leading.mpr ⟨hb, h⟩)

theorem leading_lt_iff (ha : a.isZero ≠ true) (hb : b.isZero ≠ true) (hne : a.leading ≠ b.leading) :
    a.leading < b.leading ↔ |a.toRat| < |b.toRat| := by
  refine ⟨abs_toRat_lt_of_leading_lt hb, fun hlt => ?_⟩
  by_contra hge
  exact lt_asymm hlt (abs_toRat_lt_of_leading_lt ha (by omega))

/-- The order of two decimals is that of their numbers, whichever way it is settled. -/
theorem order_eq (a b : Decimal) : a.order b = compare a.toRat b.toRat := by
  unfold order
  split
  · rename_i hapart
    have h := areApart_of hapart
    exact compare_congr h.signed_lt_iff h.symm.signed_lt_iff
  · rename_i hsame
    simp only [Bool.or_eq_true, not_or, bne_iff_ne, ne_eq, not_not] at hsame
    obtain ⟨⟨ha, hb⟩, hsign⟩ := hsame
    split
    · let e := min a.exponent b.exponent
      have hpower : (0 : ℚ) < 10 ^ e := zpow_pos (by norm_num) e
      have hlt {c d : Decimal} (hc : e ≤ c.exponent) (hd : e ≤ d.exponent) :
          c.scaledTo e < d.scaledTo e ↔ c.toRat < d.toRat := by
        rw [← scaledTo_mul hc, ← scaledTo_mul hd, mul_lt_mul_iff_left₀ hpower, Int.cast_lt]
      exact compare_congr (hlt (min_le_left _ _) (min_le_right _ _))
        (hlt (min_le_right _ _) (min_le_left _ _))
    · rename_i hne
      split
      · rename_i hminus
        have hlt := leading_lt_iff ha hb hne
        have hgt := leading_lt_iff hb ha (Ne.symm hne)
        rw [abs_toRat_of_negative hminus, abs_toRat_of_negative (hsign ▸ hminus),
          neg_lt_neg_iff] at hlt hgt
        exact compare_congr hgt hlt
      · rename_i hplus
        have hlt := leading_lt_iff ha hb hne
        have hgt := leading_lt_iff hb ha (Ne.symm hne)
        rw [abs_toRat_of_not_negative hplus, abs_toRat_of_not_negative (hsign ▸ hplus)] at hlt hgt
        exact compare_congr hlt hgt

theorem numericEq_iff : a.numericEq b = true ↔ a.toRat = b.toRat := by
  rw [numericEq, decide_eq_true_iff, order_eq, compare_eq_iff_eq]

theorem lt_iff : a.lt b = true ↔ a.toRat < b.toRat := by
  rw [lt, decide_eq_true_iff, order_eq, compare_lt_iff_lt]

end Decimal

namespace Value

variable {a b v : Value} {t : Ty}

/-- What a value is ordered by within its kind: its number, or else its characters. -/
def rank : Value → ℚ ×ₗ List Char
  | integer n => toLex (n, [])
  | decimal d => toLex (d.toRat, [])
  | character c => toLex (0, [c])
  | string s => toLex (0, s.toList)
  | _ => toLex (0, [])

theorem Fits.character (h : v.Fits .character) : ∃ c, v = .character c := by
  have htype := h.type_eq nofun nofun
  have hplain := h.plain
  cases v <;> simp_all [type, IsPlain]

/-- Two values of a kind that has an order, and where each comes in it. -/
structure Ranked (a b : Value) : Prop where
  comparable : a.areComparable b = true
  plain : (a.isObject || b.isObject) = false
  less : a.less b = true ↔ a.rank < b.rank
  same : a.same b = true ↔ a.rank = b.rank

theorem ranked_integer (m n : Int) : Ranked (.integer m) (.integer n) := by
  refine ⟨rfl, rfl, ?_, ?_⟩
  · simp [less, rank, Prod.Lex.toLex_lt_toLex]
  · simp [same, rank]

theorem ranked_decimal (d e : Decimal) : Ranked (.decimal d) (.decimal e) := by
  refine ⟨rfl, rfl, ?_, ?_⟩
  · simp [less, rank, Prod.Lex.toLex_lt_toLex, Decimal.lt_iff]
  · simp [same, rank, Decimal.numericEq_iff]

theorem ranked_character (c d : Char) : Ranked (.character c) (.character d) := by
  refine ⟨rfl, rfl, ?_, ?_⟩
  · simp [less, rank, Prod.Lex.toLex_lt_toLex, List.cons_lt_cons_iff]
  · simp [same, rank]

theorem ranked_string (s u : String) : Ranked (.string s) (.string u) := by
  have hless : less (.string s) (.string u) = true ↔ s.toList < u.toList := decide_eq_true_iff
  refine ⟨rfl, rfl, ?_, ?_⟩
  · simp only [hless, rank, Prod.Lex.toLex_lt_toLex, lt_self_iff_false, true_and, false_or]
  · simp [same, rank, String.toList_inj]

theorem Fits.ranked (ht : t.isOrdered = true) (ha : a.Fits t) (hb : b.Fits t) : Ranked a b := by
  cases t with
  | integer =>
    obtain ⟨m, rfl⟩ := ha.integer
    obtain ⟨n, rfl⟩ := hb.integer
    exact ranked_integer m n
  | decimal =>
    obtain ⟨d, rfl⟩ := ha.decimal
    obtain ⟨e, rfl⟩ := hb.decimal
    exact ranked_decimal d e
  | character =>
    obtain ⟨c, rfl⟩ := ha.character
    obtain ⟨d, rfl⟩ := hb.character
    exact ranked_character c d
  | string =>
    obtain ⟨s, rfl⟩ := ha.string
    obtain ⟨u, rfl⟩ := hb.string
    exact ranked_string s u
  | _ => cases ht

end Value

namespace Operator

open Value

variable {α : Type} [LinearOrder α] {op : Operator} {a b c : Value} {t : Ty}

/-- What a comparison says of two places in a linear order. -/
def Relates (op : Operator) (x y : α) : Prop :=
  match op with
  | eq => x = y
  | ne => x ≠ y
  | lt => x < y
  | le => x ≤ y
  | gt => y < x
  | ge => y ≤ x
  | _ => False

/-- The comparison is made, and it holds. -/
def Affirms (op : Operator) (a b : Value) : Prop := op.apply a b = .ok (.boolean true)

/-- The comparison is made, and it does not hold. -/
def Denies (op : Operator) (a b : Value) : Prop := op.apply a b = .ok (.boolean false)

/-- The six comparisons, of `a` with `b` and of both with `c`, are those of one linear order, which
is the order of ranks. -/
structure OrdersLinearly (a b c : Value) : Prop where
  answers : ∀ op : Operator, op.isComparison = true → op.Affirms a b ∨ op.Denies a b
  trichotomy :
    lt.Affirms a b ∧ ¬ eq.Affirms a b ∧ ¬ lt.Affirms b a ∨
    ¬ lt.Affirms a b ∧ eq.Affirms a b ∧ ¬ lt.Affirms b a ∨
    ¬ lt.Affirms a b ∧ ¬ eq.Affirms a b ∧ lt.Affirms b a
  le_iff : le.Affirms a b ↔ lt.Affirms a b ∨ eq.Affirms a b
  gt_eq : gt.apply a b = lt.apply b a
  ge_eq : ge.apply a b = le.apply b a
  ne_iff : ne.Affirms a b ↔ ¬ eq.Affirms a b
  lt_trans : lt.Affirms a b → lt.Affirms b c → lt.Affirms a c
  le_trans : le.Affirms a b → le.Affirms b c → le.Affirms a c
  eq_refl : eq.Affirms a a
  eq_symm : eq.Affirms a b → eq.Affirms b a
  eq_trans : eq.Affirms a b → eq.Affirms b c → eq.Affirms a c
  respects : eq.Affirms a b → ∀ op : Operator, op.isComparison = true →
    op.apply a c = op.apply b c ∧ op.apply c a = op.apply c b
  lt_iff_rank : lt.Affirms a b ↔ a.rank < b.rank
  eq_iff_rank : eq.Affirms a b ↔ a.rank = b.rank

theorem holds_iff (hop : op.isComparison = true) (hab : Ranked a b) (hba : Ranked b a) :
    op.holds a b = true ↔ op.Relates a.rank b.rank := by
  cases op with
  | eq => exact hab.same
  | ne => rw [holds, Bool.not_eq_true', ← Bool.not_eq_true, hab.same, Relates]
  | lt => exact hab.less
  | le => rw [holds, Bool.or_eq_true, hab.less, hab.same, Relates, le_iff_lt_or_eq]
  | gt => exact hba.less
  | ge => rw [holds, Bool.or_eq_true, hba.less, hab.same, Relates, le_iff_lt_or_eq, eq_comm]
  | _ => cases hop

theorem apply_comparison (hop : op.isComparison = true) (hab : Ranked a b) :
    op.apply a b = .ok (.boolean (op.holds a b)) := by
  have hcompare : op.compare a b = .ok (.boolean (op.holds a b)) := by
    rw [compare, if_pos hab.comparable, hab.plain, Bool.not_false, Bool.or_true, if_pos rfl]
  cases op <;> first | exact hcompare | cases hop

theorem affirms_iff (hop : op.isComparison = true) (hab : Ranked a b) (hba : Ranked b a) :
    op.Affirms a b ↔ op.Relates a.rank b.rank := by
  rw [Affirms, apply_comparison hop hab, ← holds_iff hop hab hba]
  simp

/-- Values of equal ranks compare alike. -/
theorem apply_congr (hop : op.isComparison = true) {u v : Value} (hab : Ranked a b)
    (hba : Ranked b a) (huv : Ranked u v) (hvu : Ranked v u) (hleft : a.rank = u.rank)
    (hright : b.rank = v.rank) : op.apply a b = op.apply u v := by
  have hholds : op.holds a b = op.holds u v := by
    rw [Bool.eq_iff_iff, holds_iff hop hab hba, holds_iff hop huv hvu, hleft, hright]
  rw [apply_comparison hop hab, apply_comparison hop huv, hholds]

/-- Of values of one ordered kind, exactly one of `a < b`, `a == b` and `b < a` holds, the other
comparisons follow from these, and equal values compare alike with every third one. -/
theorem orders_linearly (ht : t.isOrdered = true) (ha : a.Fits t) (hb : b.Fits t) (hc : c.Fits t) :
    OrdersLinearly a b c := by
  have ranked {u v : Value} (hu : u.Fits t) (hv : v.Fits t) : Ranked u v := hu.ranked ht hv
  have iff {u v : Value} (hu : u.Fits t) (hv : v.Fits t) {op : Operator}
      (hop : op.isComparison = true) : op.Affirms u v ↔ op.Relates u.rank v.rank :=
    affirms_iff hop (ranked hu hv) (ranked hv hu)
  have trichotomy := lt_trichotomy a.rank b.rank
  constructor
  case answers =>
    intro op hop
    rw [Affirms, Denies, apply_comparison hop (ranked ha hb)]
    cases op.holds a b
    · exact .inr rfl
    · exact .inl rfl
  case trichotomy =>
    rw [iff ha hb rfl, iff ha hb rfl, iff hb ha rfl]
    rcases trichotomy with h | h | h
    · exact .inl ⟨h, h.ne, h.not_gt⟩
    · exact .inr (.inl ⟨h.not_lt, h, h.not_gt⟩)
    · exact .inr (.inr ⟨h.not_gt, h.ne', h⟩)
  case le_iff =>
    rw [iff ha hb rfl, iff ha hb rfl, iff ha hb rfl]
    exact le_iff_lt_or_eq
  case gt_eq =>
    rw [apply_comparison rfl (ranked ha hb), apply_comparison rfl (ranked hb ha)]
    rfl
  case ge_eq =>
    have hholds : ge.holds a b = le.holds b a := by
      rw [Bool.eq_iff_iff, holds_iff rfl (ranked ha hb) (ranked hb ha),
        holds_iff rfl (ranked hb ha) (ranked ha hb)]
      exact Iff.rfl
    rw [apply_comparison rfl (ranked ha hb), apply_comparison rfl (ranked hb ha), hholds]
  case ne_iff =>
    rw [iff ha hb rfl, iff ha hb rfl]
    exact Iff.rfl
  case lt_trans =>
    rw [iff ha hb rfl, iff hb hc rfl, iff ha hc rfl]
    exact fun hab hbc => hab.trans hbc
  case le_trans =>
    rw [iff ha hb rfl, iff hb hc rfl, iff ha hc rfl]
    exact fun hab hbc => hab.trans hbc
  case eq_refl => exact (iff ha ha rfl).mpr rfl
  case eq_symm =>
    rw [iff ha hb rfl, iff hb ha rfl]
    exact fun hab => hab.symm
  case eq_trans =>
    rw [iff ha hb rfl, iff hb hc rfl, iff ha hc rfl]
    exact fun hab hbc => hab.trans hbc
  case respects =>
    intro heq op hop
    have hrank : a.rank = b.rank := (iff ha hb rfl).mp heq
    exact ⟨apply_congr hop (ranked ha hc) (ranked hc ha) (ranked hb hc) (ranked hc hb) hrank rfl,
      apply_congr hop (ranked hc ha) (ranked ha hc) (ranked hc hb) (ranked hb hc) rfl hrank⟩
  case lt_iff_rank => exact iff ha hb rfl
  case eq_iff_rank => exact iff ha hb rfl

/-- A negative zero, a zero of another scale and a tenth. -/
theorem orders_linearly_zeros :
    OrdersLinearly (.decimal ⟨true, 0, -1⟩) (.decimal ⟨false, 0, -2⟩) (.decimal ⟨false, 1, -1⟩) ∧
    eq.Affirms (.decimal ⟨true, 0, -1⟩) (.decimal ⟨false, 0, -2⟩) ∧
    lt.Affirms (.decimal ⟨false, 0, -2⟩) (.decimal ⟨false, 1, -1⟩) :=
  ⟨orders_linearly (t := .decimal) rfl (fits_self trivial) (fits_self trivial) (fits_self trivial),
    rfl, rfl⟩

end Operator

end BlockScript
