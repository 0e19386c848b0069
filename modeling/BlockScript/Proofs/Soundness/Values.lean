import BlockScript.Execution.Run
import BlockScript.Proofs.Store.Root
import BlockScript.Proofs.Typing.Judgement

/-!
# Values of a type

Which values may stand where a type is asked for, and what operators and built-in functions do with
operands that fit: they give a value that fits the type of the result, or fail in a way that has
nothing to do with types.
-/

namespace BlockScript

/-- The value belongs to the language and not to a host. -/
def Value.IsPlain : Value → Prop
  | .object .. => False
  | _ => True

theorem Value.IsPlain.isObject {v : Value} (h : v.IsPlain) : v.isObject = false := by
  cases v <;> first | rfl | exact h.elim

theorem Value.type_mem_builtIn {v : Value} (h : v.IsPlain) : v.type ∈ Ty.builtIn := by
  cases v with
  | object => exact h.elim
  | _ => simp [Value.type, Ty.builtIn]

/-- A value that may stand where the type is asked for. -/
structure Value.Fits (v : Value) (t : Ty) : Prop where
  plain : v.IsPlain
  accepts : t.accepts v.type = true

/-- The value fits the type, or it is nil where that may stand for any value. -/
def Value.Meets (total : Prop) (v : Value) (t : Ty) : Prop := v.Fits t ∨ ¬ total ∧ v = .nil

/-- A failure that is no matter of types or names. -/
def Failure.IsBenign : Failure → Prop
  | .diagnostic d => d.cause.family ≠ .typeAssertion ∧ d.cause.family.isUndefinedName = false
  | .crash c => c = .decimalOverflow
  | .misuse _ | .outOfFuel => True

theorem Failure.IsBenign.locate {e : Failure} (h : e.IsBenign) (p : Position) :
    (e.locate p).IsBenign := by
  cases e <;> exact h

/-- What gives a value of a type or fails benignly. -/
def Yields (t : Ty) : Except Breakdown Value → Prop
  | .ok v => v.Fits t
  | .error e => (Failing.failure e).IsBenign

namespace Ty

variable {t u v : Ty}

theorem accepts_eq_true : t.accepts u = true ↔
    t = u ∨ t = .any ∨ t = .comparable ∧ u.isOrdered = true := by
  simp [accepts, or_assoc]

theorem accepts_trans (htu : t.accepts u = true) (huv : u.accepts v = true) :
    t.accepts v = true := by
  rw [accepts_eq_true] at *
  rcases htu with rfl | rfl | ⟨rfl, hu⟩
  · exact huv
  · exact .inr (.inl rfl)
  · rcases huv with rfl | rfl | ⟨rfl, -⟩
    · exact .inr (.inr ⟨rfl, hu⟩)
    · cases hu
    · cases hu

end Ty

namespace Value

variable {v : Value} {t u : Ty}

theorem Fits.accept (h : v.Fits t) (htu : u.accepts t = true) : v.Fits u :=
  ⟨h.plain, Ty.accepts_trans htu h.accepts⟩

theorem Fits.any (h : v.Fits t) : v.Fits .any := h.accept (Ty.any_accepts t)

/-- A type that takes only its own values. -/
theorem Fits.type_eq (h : v.Fits t) (hany : t ≠ .any) (hcomparable : t ≠ .comparable) :
    v.type = t := by
  rcases Ty.accepts_eq_true.mp h.accepts with rfl | rfl | ⟨rfl, -⟩
  · rfl
  · exact absurd rfl hany
  · exact absurd rfl hcomparable

theorem Fits.boolean (h : v.Fits .boolean) : ∃ b, v = .boolean b := by
  have htype := h.type_eq nofun nofun
  have hplain := h.plain
  cases v <;> simp_all [type, IsPlain]

theorem Fits.integer (h : v.Fits .integer) : ∃ n, v = .integer n := by
  have htype := h.type_eq nofun nofun
  have hplain := h.plain
  cases v <;> simp_all [type, IsPlain]

theorem Fits.decimal (h : v.Fits .decimal) : ∃ d, v = .decimal d := by
  have htype := h.type_eq nofun nofun
  have hplain := h.plain
  cases v <;> simp_all [type, IsPlain]

theorem Fits.string (h : v.Fits .string) : ∃ s, v = .string s := by
  have htype := h.type_eq nofun nofun
  have hplain := h.plain
  cases v <;> simp_all [type, IsPlain]

theorem Fits.iterable (h : v.Fits .iterable) : ∃ start stop, v = .range start stop := by
  have htype := h.type_eq nofun nofun
  have hplain := h.plain
  cases v <;> simp_all [type, IsPlain]

theorem fits_self (h : v.IsPlain) : v.Fits v.type := ⟨h, Ty.accepts_self _⟩

theorem yields_ofArithmetic (result : Option Decimal) : Yields .decimal (ofArithmetic result) := by
  cases result with
  | none => exact (rfl : Crash.decimalOverflow = .decimalOverflow)
  | some d => exact fits_self trivial

theorem fits_of_ofArithmetic {result : Option Decimal} (h : ofArithmetic result = .ok v) :
    v.Fits .decimal := by
  obtain ⟨d, rfl⟩ := eq_decimal_of_ofArithmetic h
  exact fits_self trivial

variable {total : Prop}

theorem Meets.accept (h : v.Meets total t) (htu : u.accepts t = true) : v.Meets total u :=
  h.imp_left fun hv => hv.accept htu

theorem Meets.any (h : v.Meets total t) : v.Meets total .any := h.accept (Ty.any_accepts t)

theorem Meets.fits (h : v.Meets total t) (htotal : total) : v.Fits t :=
  h.resolve_right fun hnil => hnil.1 htotal

theorem Meets.fits_or_nil (h : v.Meets total t) : v.Fits t ∨ v = .nil := h.imp_right And.right

end Value

/-! ## Operators -/

namespace Operator

variable {op : Operator} {a b : Value} {left right t : Ty}

def isComparison : Operator → Bool
  | eq | ne | lt | le | gt | ge => true
  | _ => false

/-- Operators that may not evaluate their right operand work on booleans only. -/
theorem types_of_decisive {decisive : Bool} (hop : Run.decisive? op = some decisive)
    (ht : op.resultType? left right = some t) :
    left = .boolean ∧ right = .boolean ∧ t = .boolean := by
  have hboolean (h : (if left = .boolean && right = .boolean then some Ty.boolean else none) =
      some t) : left = .boolean ∧ right = .boolean ∧ t = .boolean := by
    split at h
    · rename_i hboth
      rw [Bool.and_eq_true, decide_eq_true_eq, decide_eq_true_eq] at hboth
      cases h
      exact ⟨hboth.1, hboth.2, rfl⟩
    · cases h
  cases op with
  | and | or => exact hboolean ht
  | _ => cases hop

theorem yields_comparison (ha : a.Fits left) (hb : b.Fits left) (hleft : left.isOrdered = true) :
    Yields .boolean (op.compare a b) := by
  have hany : left ≠ .any := by rintro rfl; cases hleft
  have hcomparable : left ≠ .comparable := by rintro rfl; cases hleft
  have hsame : a.areComparable b = true := by
    rw [Value.areComparable, Value.kind, Value.kind, ha.type_eq hany hcomparable,
      hb.type_eq hany hcomparable]
    cases left <;> first | rfl | cases hleft
  rw [compare, if_pos hsame, ha.plain.isObject, hb.plain.isObject, Bool.or_false, Bool.not_false,
    Bool.or_true, if_pos rfl]
  exact Value.fits_self trivial

/-- Numbers of one kind, and what an operation does with them. -/
theorem yields_onNumbers {integers : Int → Int → Except Breakdown Value}
    {decimals : Decimal → Decimal → Except Breakdown Value} (ha : a.Fits left) (hb : b.Fits left)
    (hleft : left.isNumeric = true) (hintegers : ∀ x y, Yields .integer (integers x y))
    (hdecimals : ∀ x y, Yields .decimal (decimals x y)) :
    Yields left (op.onNumbers integers decimals a b) := by
  cases left <;> cases hleft
  · obtain ⟨x, rfl⟩ := ha.integer
    obtain ⟨y, rfl⟩ := hb.integer
    exact hintegers x y
  · obtain ⟨x, rfl⟩ := ha.decimal
    obtain ⟨y, rfl⟩ := hb.decimal
    exact hdecimals x y

theorem concatenate_eq_some (h : (∃ s, a = .string s) ∨ ∃ s, b = .string s) :
    ∃ s, concatenate? a b = some (.string s) := by
  rcases h with ⟨s, rfl⟩ | ⟨s, rfl⟩
  · exact ⟨_, rfl⟩
  · cases a <;> exact ⟨_, rfl⟩

theorem yields_add (ha : a.Fits left) (hb : b.Fits right)
    (ht : add.resultType? left right = some t) : Yields t (add.apply a b) := by
  unfold resultType? at ht
  dsimp only at ht
  unfold apply
  dsimp only
  split at ht
  · rename_i hstring
    rw [Bool.or_eq_true, decide_eq_true_eq, decide_eq_true_eq] at hstring
    cases ht
    have hsome : ∃ s, concatenate? a b = some (.string s) := by
      refine concatenate_eq_some ?_
      rcases hstring with rfl | rfl
      · exact .inl ha.string
      · exact .inr hb.string
    obtain ⟨s, hs⟩ := hsome
    rw [hs]
    exact Value.fits_self trivial
  · split at ht
    · rename_i hnumeric
      rw [Bool.and_eq_true, decide_eq_true_eq] at hnumeric
      obtain ⟨rfl, hnumeric⟩ := hnumeric
      cases ht
      have hnone : concatenate? a b = none := by
        cases left <;> cases hnumeric
        · obtain ⟨x, rfl⟩ := ha.integer
          obtain ⟨y, rfl⟩ := hb.integer
          rfl
        · obtain ⟨x, rfl⟩ := ha.decimal
          obtain ⟨y, rfl⟩ := hb.decimal
          rfl
      rw [hnone]
      exact yields_onNumbers ha hb hnumeric (fun _ _ => Value.fits_self trivial)
        fun _ _ => Value.yields_ofArithmetic _
    · cases ht

theorem yields_arithmetic {integers : Int → Int → Except Breakdown Value}
    {decimals : Decimal → Decimal → Except Breakdown Value} (ha : a.Fits left) (hb : b.Fits right)
    (ht : (if left = right && left.isNumeric then some left else none) = some t)
    (hintegers : ∀ x y, Yields .integer (integers x y))
    (hdecimals : ∀ x y, Yields .decimal (decimals x y)) :
    Yields t (op.onNumbers integers decimals a b) := by
  split at ht
  · rename_i hnumeric
    rw [Bool.and_eq_true, decide_eq_true_eq] at hnumeric
    obtain ⟨rfl, hnumeric⟩ := hnumeric
    cases ht
    exact yields_onNumbers ha hb hnumeric hintegers hdecimals
  · cases ht

/-- What an operator that evaluates both operands makes of operands that fit. -/
theorem yields_apply (ha : a.Fits left) (hb : b.Fits right)
    (ht : op.resultType? left right = some t) (hop : Run.decisive? op = none)
    (hcomparable : op.isComparison = true → left ≠ .comparable) : Yields t (op.apply a b) := by
  cases op with
  | eq | ne | lt | le | gt | ge =>
    unfold resultType? at ht
    dsimp only at ht
    split at ht
    · rename_i hcompare
      rw [Bool.and_eq_true, decide_eq_true_eq, Ty.isComparable, Bool.or_eq_true,
        decide_eq_true_eq] at hcompare
      obtain ⟨rfl, hordered⟩ := hcompare
      cases ht
      exact yields_comparison ha hb (hordered.resolve_right (hcomparable rfl))
    · cases ht
  | add => exact yields_add ha hb ht
  | sub | mul =>
    exact yields_arithmetic ha hb ht (fun _ _ => Value.fits_self trivial)
      fun _ _ => Value.yields_ofArithmetic _
  | div =>
    refine yields_arithmetic ha hb ht (fun x y => ?_) fun x y => ?_
    · split
      · exact ⟨nofun, rfl⟩
      · exact Value.fits_self trivial
    · split
      · exact ⟨nofun, rfl⟩
      · exact Value.fits_self trivial
  | and | or => cases hop
  | unknown => cases ht

/-- An operation on numbers needs two of them, and no nil. -/
theorem fits_of_onNumbers {integers : Int → Int → Except Breakdown Value}
    {decimals : Decimal → Decimal → Except Breakdown Value} {v : Value}
    (ha : a.Fits left ∨ a = .nil) (hleft : left.isNumeric = true)
    (hintegers : ∀ x y v, integers x y = .ok v → v.Fits .integer)
    (hdecimals : ∀ x y v, decimals x y = .ok v → v.Fits .decimal)
    (h : op.onNumbers integers decimals a b = .ok v) : v.Fits left := by
  have hany : left ≠ .any := by rintro rfl; cases hleft
  have hcomparable : left ≠ .comparable := by rintro rfl; cases hleft
  unfold onNumbers at h
  split at h
  · rename_i x y
    rw [← (ha.resolve_right nofun).type_eq hany hcomparable]
    exact hintegers x y v h
  · rename_i x y
    rw [← (ha.resolve_right nofun).type_eq hany hcomparable]
    exact hdecimals x y v h
  · cases h

theorem fits_of_comparison {v : Value} (h : op.compare a b = .ok v) : v.Fits .boolean := by
  obtain rfl := eq_boolean_of_compare h
  exact Value.fits_self trivial

theorem fits_of_concatenate {v : Value} (h : concatenate? a b = some v) :
    v.Fits .string ∧ ((∃ s, a = .string s) ∨ ∃ s, b = .string s) := by
  unfold concatenate? at h
  split at h
  · cases h
    exact ⟨Value.fits_self trivial, .inl ⟨_, rfl⟩⟩
  · cases h
    exact ⟨Value.fits_self trivial, .inr ⟨_, rfl⟩⟩
  · cases h

theorem fits_of_add {v : Value} (ha : a.Fits left ∨ a = .nil) (hb : b.Fits right ∨ b = .nil)
    (ht : add.resultType? left right = some t) (h : add.apply a b = .ok v) : v.Fits t := by
  unfold resultType? at ht
  unfold apply at h
  dsimp only at ht h
  cases hconcatenate : concatenate? a b with
  | some text =>
    rw [hconcatenate] at h
    cases h
    obtain ⟨hfits, hstring⟩ := fits_of_concatenate hconcatenate
    split at ht
    · cases ht
      exact hfits
    · split at ht
      · rename_i hnumeric
        rw [Bool.and_eq_true, decide_eq_true_eq] at hnumeric
        obtain ⟨rfl, hnumeric⟩ := hnumeric
        have hany : left ≠ .any := by rintro rfl; cases hnumeric
        have hcomparable : left ≠ .comparable := by rintro rfl; cases hnumeric
        have hleft : Value.type (.string "") = left := by
          rcases hstring with ⟨s, rfl⟩ | ⟨s, rfl⟩
          · exact (ha.resolve_right nofun).type_eq hany hcomparable
          · exact (hb.resolve_right nofun).type_eq hany hcomparable
        rw [← hleft] at hnumeric
        cases hnumeric
      · cases ht
  | none =>
    rw [hconcatenate] at h
    split at ht
    · rename_i hstring
      rw [Bool.or_eq_true, decide_eq_true_eq, decide_eq_true_eq] at hstring
      have hnone : ¬ ((∃ s, a = .string s) ∨ ∃ s, b = .string s) := fun hsome => by
        obtain ⟨s, hs⟩ := concatenate_eq_some hsome
        rw [hs] at hconcatenate
        cases hconcatenate
      -- without a string, the operand of that type is nil
      have hnil : a = .nil ∨ b = .nil := by
        rcases hstring with rfl | rfl
        · exact .inl (ha.resolve_left fun ha => hnone (.inl ha.string))
        · exact .inr (hb.resolve_left fun hb => hnone (.inr hb.string))
      rcases hnil with rfl | rfl
      · cases h
      · cases a <;> cases h
    · split at ht
      · rename_i hnumeric
        rw [Bool.and_eq_true, decide_eq_true_eq] at hnumeric
        cases ht
        refine fits_of_onNumbers ha hnumeric.2 (fun x y v hv => ?_)
          (fun x y v hv => Value.fits_of_ofArithmetic hv) h
        cases hv
        exact Value.fits_self trivial
      · cases ht

theorem fits_of_arithmetic {integers : Int → Int → Except Breakdown Value}
    {decimals : Decimal → Decimal → Except Breakdown Value} {v : Value}
    (ha : a.Fits left ∨ a = .nil)
    (ht : (if left = right && left.isNumeric then some left else none) = some t)
    (hintegers : ∀ x y v, integers x y = .ok v → v.Fits .integer)
    (hdecimals : ∀ x y v, decimals x y = .ok v → v.Fits .decimal)
    (h : op.onNumbers integers decimals a b = .ok v) : v.Fits t := by
  split at ht
  · rename_i hnumeric
    rw [Bool.and_eq_true, decide_eq_true_eq] at hnumeric
    cases ht
    exact fits_of_onNumbers ha hnumeric.2 hintegers hdecimals h
  · cases ht

/-- What an operation gives is of the type of its result, also where an operand is nil. -/
theorem fits_of_apply {v : Value} (ha : a.Fits left ∨ a = .nil) (hb : b.Fits right ∨ b = .nil)
    (ht : op.resultType? left right = some t) (h : op.apply a b = .ok v) : v.Fits t := by
  have hinteger (n : Int) (v : Value) (hv : Except.ok (ε := Breakdown) (.integer n) = .ok v) :
      v.Fits .integer := by
    cases hv
    exact Value.fits_self trivial
  have hdecimal (d : Decimal) (v : Value) (hv : Except.ok (ε := Breakdown) (.decimal d) = .ok v) :
      v.Fits .decimal := by
    cases hv
    exact Value.fits_self trivial
  cases op with
  | eq | ne | lt | le | gt | ge =>
    unfold resultType? at ht
    dsimp only at ht
    split at ht
    · cases ht
      exact fits_of_comparison h
    · cases ht
  | add => exact fits_of_add ha hb ht h
  | sub | mul =>
    exact fits_of_arithmetic ha ht (fun _ _ => hinteger _)
      (fun _ _ _ => Value.fits_of_ofArithmetic) h
  | div =>
    refine fits_of_arithmetic ha ht (fun x y v hv => ?_) (fun x y v hv => ?_) h
    · split at hv
      · cases hv
      · exact hinteger _ v hv
    · split at hv
      · cases hv
      · exact hdecimal _ v hv
  | and | or | unknown => cases h

end Operator

/-! ## Literals -/

namespace Run

open Attempt

theorem ends_literal {value : Literal} {t : Ty} (ht : Check.literalType value = .ok t)
    (m : Machine) :
    Ends (literal value) m (fun v n => n = m ∧ v.Fits t) fun e _ => e.IsBenign := by
  cases value with
  | nil | boolean | string =>
    cases ht
    exact ⟨rfl, Value.fits_self trivial⟩
  | character text =>
    cases ht
    unfold literal Value.ofCharacterText
    dsimp only
    split
    · rename_i h
      split at h
      · cases h
        exact ⟨rfl, Value.fits_self trivial⟩
      · cases h
    · exact trivial
  | integer value raw =>
    dsimp only [Check.literalType] at ht
    split at ht
    · cases ht
      exact ⟨rfl, Value.fits_self trivial⟩
    · cases ht
  | decimal value raw =>
    dsimp only [Check.literalType] at ht
    split at ht
    · cases ht
      exact ⟨rfl, Value.fits_self trivial⟩
    · cases ht

end Run

/-! ## Built-in functions -/

/-- Values that fit the types of parameters one by one. -/
abbrev Suit (args : List Value) (params : List Ty) : Prop := List.Forall₂ Value.Fits args params

namespace Native

variable {args : List Value} {t u v : Ty}

theorem suit_one (h : Suit args [t]) : ∃ a, args = [a] ∧ a.Fits t := by
  obtain _ | ⟨ha, hrest⟩ := h
  obtain _ | _ := hrest
  exact ⟨_, rfl, ha⟩

theorem suit_two (h : Suit args [t, u]) : ∃ a b, args = [a, b] ∧ a.Fits t ∧ b.Fits u := by
  obtain _ | ⟨ha, hrest⟩ := h
  obtain ⟨b, rfl, hb⟩ := suit_one hrest
  exact ⟨_, b, rfl, ha, hb⟩

theorem suit_three (h : Suit args [t, u, v]) :
    ∃ a b c, args = [a, b, c] ∧ a.Fits t ∧ b.Fits u ∧ c.Fits v := by
  obtain _ | ⟨ha, hrest⟩ := h
  obtain ⟨b, c, rfl, hb, hc⟩ := suit_two hrest
  exact ⟨_, b, c, rfl, ha, hb, hc⟩

theorem yields_range (h : Suit args [.integer, .integer]) : Yields .iterable (range args) := by
  obtain ⟨a, b, rfl, ha, hb⟩ := suit_two h
  obtain ⟨x, rfl⟩ := ha.integer
  obtain ⟨y, rfl⟩ := hb.integer
  exact Value.fits_self trivial

theorem yields_stringLength (h : Suit args [.string]) : Yields .integer (stringLength args) := by
  obtain ⟨a, rfl, ha⟩ := suit_one h
  obtain ⟨s, rfl⟩ := ha.string
  exact Value.fits_self trivial

theorem yields_stringCharAt (h : Suit args [.string, .integer]) :
    Yields .character (stringCharAt args) := by
  obtain ⟨a, b, rfl, ha, hb⟩ := suit_two h
  obtain ⟨s, rfl⟩ := ha.string
  obtain ⟨i, rfl⟩ := hb.integer
  have hstring : asString (argument [.string s, .integer i] 0) = .ok s := rfl
  have hindex : asInteger (argument [.string s, .integer i] 1) = .ok i := rfl
  simp only [stringCharAt, hstring, hindex, bind, Except.bind]
  split
  · exact Value.fits_self trivial
  · exact ⟨nofun, rfl⟩

/-- The part of a string between two indices. -/
theorem yields_slice (s : String) (start stop : Int) :
    Yields .string (if start < 0 || s.length < stop || stop < start then
      .error (.cause (.sliceOutOfRange start stop s.length))
    else .ok (.string (String.ofList ((s.toList.take stop.toNat).drop start.toNat)))) := by
  split
  · exact ⟨nofun, rfl⟩
  · exact Value.fits_self trivial

theorem yields_stringSubstring (h : Suit args [.string, .integer]) :
    Yields .string (stringSubstring args) := by
  obtain ⟨a, b, rfl, ha, hb⟩ := suit_two h
  obtain ⟨s, rfl⟩ := ha.string
  obtain ⟨i, rfl⟩ := hb.integer
  exact yields_slice s i s.length

theorem yields_stringSubstring_stop (h : Suit args [.string, .integer, .integer]) :
    Yields .string (stringSubstring args) := by
  obtain ⟨a, b, c, rfl, ha, hb, hc⟩ := suit_three h
  obtain ⟨s, rfl⟩ := ha.string
  obtain ⟨i, rfl⟩ := hb.integer
  obtain ⟨j, rfl⟩ := hc.integer
  exact yields_slice s i j

theorem yields_integerAbs (h : Suit args [.integer]) : Yields .integer (integerAbs args) := by
  obtain ⟨a, rfl, ha⟩ := suit_one h
  obtain ⟨n, rfl⟩ := ha.integer
  exact Value.fits_self trivial

theorem yields_decimalAbs (h : Suit args [.decimal]) : Yields .decimal (decimalAbs args) := by
  obtain ⟨a, rfl, ha⟩ := suit_one h
  obtain ⟨d, rfl⟩ := ha.decimal
  exact Value.yields_ofArithmetic d.abs

/-! What a built-in function gives is of one type, whatever its arguments. -/

variable {a : Value}

theorem fits_range (h : range args = .ok a) : a.Fits .iterable := by
  obtain ⟨x, -, hx⟩ := Store.bind_eq_ok.mp h
  obtain ⟨y, -, hy⟩ := Store.bind_eq_ok.mp hx
  cases hy
  exact Value.fits_self trivial

theorem fits_stringLength (h : stringLength args = .ok a) : a.Fits .integer := by
  obtain ⟨s, -, hs⟩ := Store.bind_eq_ok.mp h
  cases hs
  exact Value.fits_self trivial

theorem fits_stringCharAt (h : stringCharAt args = .ok a) : a.Fits .character := by
  obtain ⟨s, -, hs⟩ := Store.bind_eq_ok.mp h
  obtain ⟨i, -, hi⟩ := Store.bind_eq_ok.mp hs
  split at hi
  · cases hi
    exact Value.fits_self trivial
  · cases hi

theorem fits_stringSubstring (h : stringSubstring args = .ok a) : a.Fits .string := by
  have hslice (s : String) (start stop : Int) (hs : (if start < 0 || s.length < stop || stop < start
      then Except.error (Breakdown.cause (.sliceOutOfRange start stop s.length))
      else .ok (.string (String.ofList ((s.toList.take stop.toNat).drop start.toNat)))) = .ok a) :
      a.Fits .string := by
    split at hs
    · cases hs
    · cases hs
      exact Value.fits_self trivial
  obtain ⟨s, -, hs⟩ := Store.bind_eq_ok.mp h
  obtain ⟨start, -, hstart⟩ := Store.bind_eq_ok.mp hs
  split at hstart
  · obtain ⟨stop, -, hstop⟩ := Store.bind_eq_ok.mp hstart
    exact hslice s start stop hstop
  · exact hslice s start s.length hstart

theorem fits_integerAbs (h : integerAbs args = .ok a) : a.Fits .integer := by
  obtain ⟨n, -, hn⟩ := Store.bind_eq_ok.mp h
  cases hn
  exact Value.fits_self trivial

theorem fits_decimalAbs (h : decimalAbs args = .ok a) : a.Fits .decimal := by
  obtain ⟨d, -, hd⟩ := Store.bind_eq_ok.mp h
  exact Value.fits_of_ofArithmetic hd

end Native

/-! ## Types that are named -/

namespace Store

variable {s : Store} {cause : Cause}

theorem namedType_error {name : Option String} (h : s.namedType name = .error cause) :
    (Failure.of cause).IsBenign := by
  cases name with
  | none => cases h
  | some name =>
    rcases bind_eq_error.mp h with hlookup | ⟨_, -, hpure⟩
    · unfold lookupType at hlookup
      split at hlookup
      · cases hlookup
      · cases hlookup
        exact ⟨nofun, rfl⟩
    · cases hpure

theorem typeOrAny_error {name : Option String} (h : s.typeOrAny name = .error cause) :
    (Failure.of cause).IsBenign := by
  rcases bind_eq_error.mp h with hname | ⟨_, -, hpure⟩
  · exact namedType_error hname
  · cases hpure

theorem paramTypes_error {ps : List Param} (h : s.paramTypes ps = .error cause) :
    (Failure.of cause).IsBenign := by
  induction ps with
  | nil => cases h
  | cons p ps ih =>
    rcases bind_eq_error.mp h with htype | ⟨_, -, hrest⟩
    · exact typeOrAny_error htype
    · rcases bind_eq_error.mp hrest with hps | ⟨_, -, hpure⟩
      · exact ih hps
      · cases hpure

end Store

/-! ## The initial store -/

namespace Store

theorem functions_initial : initial.functions.toList =
    rangeFunction :: builtInMethods.map fun (type, name, params, returns, run) =>
      ⟨name, type :: params, some returns, .native run⟩ := rfl

/-- A function with a native body that does what its signature says. -/
def IsSoundNative (fn : Function) : Prop :=
  ∃ run t, fn.body = .native run ∧ fn.returns = some t ∧
    (∀ args v, run args = .ok v → v.Fits t) ∧ ∀ args, Suit args fn.params → Yields t (run args)

theorem isSoundNative_initial {f : FunctionId} (hf : f.index < initial.functions.size) :
    IsSoundNative (initial.function f) := by
  have hall : ∀ fn ∈ initial.functions.toList, IsSoundNative fn := by
    rw [functions_initial]
    simp only [List.forall_mem_cons, List.forall_mem_map, builtInMethods]
    refine ⟨⟨_, _, rfl, rfl, fun _ _ => Native.fits_range, fun _ => Native.yields_range⟩,
      ⟨_, _, rfl, rfl, fun _ _ => Native.fits_stringLength, fun _ => Native.yields_stringLength⟩,
      ⟨_, _, rfl, rfl, fun _ _ => Native.fits_stringCharAt, fun _ => Native.yields_stringCharAt⟩,
      ⟨_, _, rfl, rfl, fun _ _ => Native.fits_stringSubstring,
        fun _ => Native.yields_stringSubstring⟩,
      ⟨_, _, rfl, rfl, fun _ _ => Native.fits_stringSubstring,
        fun _ => Native.yields_stringSubstring_stop⟩,
      ⟨_, _, rfl, rfl, fun _ _ => Native.fits_integerAbs, fun _ => Native.yields_integerAbs⟩,
      ⟨_, _, rfl, rfl, fun _ _ => Native.fits_decimalAbs, fun _ => Native.yields_decimalAbs⟩,
      nofun⟩
  refine hall _ ?_
  rw [function, Array.getD_eq_getD_getElem?, Array.getElem?_eq_getElem hf, Option.getD_some]
  exact Array.getElem_mem_toList hf

theorem members_initial : ∀ t ∈ Ty.builtIn, (initial.membersOf t).fields.entries = [] ∧
    ∀ e ∈ (initial.membersOf t).methods.entries,
      (initial.function e.2).params.head? = some t ∧ t ≠ .any ∧ t ≠ .comparable := by
  decide +kernel

/-- Built-in types have no fields. -/
theorem field_initial (t : Ty) (id : String) : (initial.membersOf t).fields.find? id = none := by
  by_cases ht : t ∈ Ty.builtIn
  · rw [Table.find?, (members_initial t ht).1]
    rfl
  · cases t with
    | custom i label => rfl
    | _ => exact absurd (by decide) ht

/-- A built-in method belongs to its first parameter's type, and that takes only its own values. -/
theorem method_initial {t : Ty} {name : String} {n : Nat} {f : FunctionId}
    (h : initial.findMethod? t name n = some f) :
    (initial.function f).params.head? = some t ∧ t ≠ .any ∧ t ≠ .comparable := by
  by_cases ht : t ∈ Ty.builtIn
  · exact (members_initial t ht).2 ((name, n + 1), f) (Table.mem_of_find? h)
  · cases t with
    | custom i label => cases h
    | _ => exact absurd (by decide) ht

/-- Nil has no methods. -/
theorem method_nil (name : String) (n : Nat) : initial.findMethod? .nil name n = none := by
  have hmembers : (initial.membersOf .nil).methods.entries = [] := by decide +kernel
  rw [findMethod?, Table.find?, hmembers]
  rfl

end Store

end BlockScript
