import BlockScript.Proofs.Number.Exactness
import BlockScript.Proofs.Store.Catalog
import Mathlib.Algebra.Field.Rat
import Mathlib.Tactic.NormNum

/-!
# Operations and their types

There are two tables of the operators: the analysis has one on types, the execution one on values
and their kinds. They agree: on operands of types that the first takes, the second gives a value of
the type that the first says, or divides by zero, and on all others it fails. They part in two
points, the limits of decimals and objects whose types have the name of an ordered type.
-/

namespace BlockScript

namespace Ty

/-- The types of the language have different names. -/
theorem name_inj : ∀ t ∈ builtIn, ∀ u ∈ builtIn, t.name = u.name → t = u := by decide

theorem mem_builtIn_of_isNumeric {t : Ty} (h : t.isNumeric = true) : t ∈ builtIn := by
  cases t <;> first | decide | simp [isNumeric] at h

end Ty

/-! ## Kinds and types of values -/

namespace Value

/-- If the value is an object, its type is none of the nine. Such a type may still share its name
with one of them. -/
def IsForeign (v : Value) : Prop := ∀ type fields, v = .object type fields → type ∉ Ty.builtIn

/-- If the value is an object, the catalog has its type. This excludes types that share their names
with others, in particular with the nine: no host can register them. -/
def IsRegistered (s : Store) (v : Value) : Prop :=
  ∀ type fields, v = .object type fields → s.lookupType type.name = .ok type

/-- The number that a value is, if it is one. -/
def number? : Value → Option ℚ
  | integer n => some n
  | decimal d => some (d.signed * 10 ^ d.exponent)
  | _ => none

variable {v l r : Value}

/-- Values of the nine types belong to the language. -/
theorem IsForeign.plain (h : v.IsForeign) (ht : v.type ∈ Ty.builtIn) : v.IsPlain := by
  cases v with
  | object type fields => exact h type fields rfl ht
  | _ => trivial

theorem IsForeign.fits (h : v.IsForeign) (ht : v.type ∈ Ty.builtIn) : v.Fits v.type :=
  fits_self (h.plain ht)

/-- The kind of an object has no order if its type is registered. -/
theorem IsForeign.contains_kind {s : Store} (hs : s.HasBuiltIn) (h : v.IsForeign)
    (hregistered : v.IsRegistered s) (hobject : v.isObject = true) :
    orderedKinds.contains v.kind = false := by
  cases v with
  | object type fields =>
    have hname := hs.name_ne (h type fields rfl) (hregistered type fields rfl)
    simp only [orderedKinds, List.map_cons, List.map_nil, List.contains_eq_mem, kind, Value.type,
      decide_eq_false_iff_not, List.mem_cons, List.not_mem_nil, or_false, not_or]
    exact ⟨hname _ (by decide), hname _ (by decide), hname _ (by decide), hname _ (by decide)⟩
  | _ => cases hobject

theorem isPlain_of_isObject (h : v.isObject = false) : v.IsPlain := by
  cases v with
  | object => cases h
  | _ => trivial

/-- The kind of a value of the language has an order just if its type has. -/
theorem IsPlain.contains_kind (h : v.IsPlain) :
    orderedKinds.contains v.kind = v.type.isOrdered := by
  cases v <;> first | rfl | exact h.elim

/-- Values of the language can be compared just if the analysis lets their types be compared. -/
theorem areComparable_eq (hl : l.IsPlain) (hr : r.IsPlain) :
    l.areComparable r = (decide (l.type = r.type) && l.type.isComparable) := by
  have hcomparable : l.type.isComparable = l.type.isOrdered := by
    cases l <;> first | rfl | exact hl.elim
  have hkind : l.kind = r.kind ↔ l.type = r.type :=
    ⟨Ty.name_inj _ (type_mem_builtIn hl) _ (type_mem_builtIn hr), congrArg Ty.name⟩
  rw [hcomparable, areComparable, hl.contains_kind, decide_eq_decide.mpr hkind]

/-- The analysis lets no objects be compared. -/
theorem not_isComparable (hl : l.IsForeign) (hr : r.IsForeign)
    (hobject : (l.isObject || r.isObject) = true) :
    (decide (l.type = r.type) && l.type.isComparable) = false := by
  have hforeign {v : Value} (h : v.IsForeign) (hv : v.isObject = true) :
      v.type.isComparable = false := by
    cases v with
    | object type fields =>
      have htype := h type fields rfl
      cases type <;> first | rfl | exact absurd (by decide) htype
    | _ => cases hv
  rw [Bool.and_eq_false_iff]
  by_cases heq : l.type = r.type
  · rcases Bool.or_eq_true_iff.mp hobject with hobject | hobject
    · exact .inr (hforeign hl hobject)
    · exact .inr (heq ▸ hforeign hr hobject)
  · exact .inl (decide_eq_false heq)

/-- A decimal is zero as a number if its coefficient is. -/
theorem number?_decimal (d : Decimal) : (decimal d).number? = some 0 ↔ d.isZero = true := by
  have hpower : (10 : ℚ) ^ d.exponent ≠ 0 := zpow_ne_zero _ (by norm_num)
  have hsigned : d.signed = 0 ↔ d.coefficient = 0 := by
    unfold Decimal.signed
    split <;> omega
  simp [number?, Decimal.isZero, hpower, hsigned]

end Value

/-! ## The two tables -/

namespace Operator

open Value

variable {op : Operator} {l r : Value}

/-- The operator divides, and its right operand is zero as a number. -/
def DividesByZero (op : Operator) (r : Value) : Prop := op = .div ∧ r.number? = some 0

/-- The left operand decides the operation, so that the right one is not evaluated. -/
def Decides (op : Operator) (l : Value) : Prop := ∃ b, Run.decisive? op = some b ∧ l = .boolean b

/-- The exact result of an operation on decimals is too large for the limits of the operators. -/
def Overflows (op : Operator) (l r : Value) : Prop :=
  ∃ a b s, l = .decimal a ∧ r = .decimal b ∧ op.IsExact a b s ∧
    Decimal.Limits.wide.threshold ≤ |s.toRat|

/-- The operator compares values of one ordered kind, of which one at least is an object: its type
only has the name of an ordered one. -/
structure Misjudges (op : Operator) (l r : Value) : Prop where
  comparison : op.isComparison = true
  comparable : l.areComparable r = true
  object : (l.isObject || r.isObject) = true

/-- Objects of registered types are never misjudged. -/
theorem not_misjudges {s : Store} (hs : s.HasBuiltIn) (hl : l.IsForeign) (hr : r.IsForeign)
    (hleft : l.IsRegistered s) (hright : r.IsRegistered s) : ¬ op.Misjudges l r := by
  intro h
  obtain ⟨hkind, hordered⟩ := Bool.and_eq_true_iff.mp h.comparable
  rcases Bool.or_eq_true_iff.mp h.object with hobject | hobject
  · rw [hl.contains_kind hs hleft hobject] at hordered
    cases hordered
  · rw [of_decide_eq_true hkind, hr.contains_kind hs hright hobject] at hordered
    cases hordered

/-- The outcome is what the analysis expects where `t` is the type that it has for the operation, or
none if it refuses the operands. It knows nothing of limits, and objects whose types have the name
of an ordered one are let through to be compared. -/
def Meets (op : Operator) (l r : Value) (t : Option Ty) : Except Breakdown Value → Prop
  | .ok v => t = some v.type ∧ ¬ op.DividesByZero r ∨
    t = none ∧ op.Misjudges l r ∧ op.isEquality = true ∧ ∃ b, v = .boolean b
  | .error (.cause cause) => t.isSome ∧ op.DividesByZero r ∧ cause.family = .arithmetic ∨
    t = none ∧ ¬ op.Misjudges l r ∧ cause.family = .typeAssertion
  | .error (.crash .unorderedObject) => t = none ∧ op.Misjudges l r ∧ op.isEquality = false
  | .error (.crash .decimalOverflow) => t.isSome ∧ op.Overflows l r

theorem meets_value {v : Value} {t : Ty} (ht : t = v.type) (hop : op ≠ .div) :
    op.Meets l r (some t) (.ok v) :=
  .inl ⟨congrArg some ht, fun h => hop h.1⟩

theorem meets_operandError (h : ¬ op.Misjudges l r) : op.Meets l r none (op.operandError l r) :=
  .inr ⟨rfl, h, rfl⟩

theorem meets_compare (hl : l.IsForeign) (hr : r.IsForeign) (hop : op.isComparison = true) :
    op.Meets l r (if l.type = r.type && l.type.isComparable then some .boolean else none)
      (op.compare l r) := by
  have hdiv : op ≠ .div := by
    rintro rfl
    cases hop
  unfold compare
  cases hobject : l.isObject || r.isObject with
  | true =>
    rw [not_isComparable hl hr hobject, if_neg Bool.false_ne_true]
    split
    · rename_i hcomparable
      have hmisjudges : op.Misjudges l r := ⟨hop, hcomparable, hobject⟩
      cases hequality : op.isEquality with
      | true => exact .inr ⟨rfl, hmisjudges, hequality, _, rfl⟩
      | false => exact ⟨rfl, hmisjudges, hequality⟩
    · rename_i hcomparable
      exact meets_operandError fun h => hcomparable h.comparable
  | false =>
    rw [Bool.or_eq_false_iff] at hobject
    rw [areComparable_eq (isPlain_of_isObject hobject.1) (isPlain_of_isObject hobject.2)]
    split
    · rw [Bool.not_false, Bool.or_true, if_pos rfl]
      exact meets_value rfl hdiv
    · refine meets_operandError fun h => ?_
      have hsome := h.object
      rw [hobject.1, hobject.2] at hsome
      cases hsome

theorem meets_onNumbers {integers : Int → Int → Except Breakdown Value}
    {decimals : Decimal → Decimal → Except Breakdown Value} (hl : l.IsForeign) (hr : r.IsForeign)
    (hop : op.isComparison = false)
    (hintegers : ∀ x y, op.Meets (.integer x) (.integer y) (some .integer) (integers x y))
    (hdecimals : ∀ x y, op.Meets (.decimal x) (.decimal y) (some .decimal) (decimals x y)) :
    op.Meets l r (if l.type = r.type && l.type.isNumeric then some l.type else none)
      (op.onNumbers integers decimals l r) := by
  split
  · rename_i hnumeric
    rw [Bool.and_eq_true, decide_eq_true_eq] at hnumeric
    obtain ⟨htype, hnumeric⟩ := hnumeric
    have hbuiltIn := Ty.mem_builtIn_of_isNumeric hnumeric
    have hleft := hl.fits hbuiltIn
    have hright := hr.fits (htype ▸ hbuiltIn)
    rw [← htype] at hright
    generalize l.type = t at *
    cases t <;> cases hnumeric
    · obtain ⟨x, rfl⟩ := hleft.integer
      obtain ⟨y, rfl⟩ := hright.integer
      exact hintegers x y
    · obtain ⟨x, rfl⟩ := hleft.decimal
      obtain ⟨y, rfl⟩ := hright.decimal
      exact hdecimals x y
  · rename_i hnumeric
    unfold onNumbers
    split
    · exact absurd rfl hnumeric
    · exact absurd rfl hnumeric
    · refine meets_operandError fun h => ?_
      have hcomparison := h.comparison
      rw [hop] at hcomparison
      cases hcomparison

/-- Decimals give a decimal, or one that is too large. -/
theorem meets_ofArithmetic {a b s : Decimal} (hop : op ≠ .div) (hs : op.IsExact a b s) :
    op.Meets (.decimal a) (.decimal b) (some .decimal)
      (Value.ofArithmetic (Decimal.Limits.wide.apply s)) := by
  cases h : Decimal.Limits.wide.apply s with
  | some d => exact meets_value rfl hop
  | none => exact ⟨rfl, a, b, s, rfl, rfl, hs, Decimal.Limits.apply_eq_none_iff.mp h⟩

theorem meets_add (hl : l.IsForeign) (hr : r.IsForeign) :
    add.Meets l r (add.resultType? l.type r.type) (add.apply l r) := by
  unfold resultType? apply
  dsimp only
  by_cases hstring : l.type = .string ∨ r.type = .string
  · have hsome : ∃ s, concatenate? l r = some (.string s) := by
      refine concatenate_eq_some (hstring.imp (fun h => ?_) fun h => ?_)
      · have hfits := hl.fits (h ▸ by decide)
        exact (h ▸ hfits).string
      · have hfits := hr.fits (h ▸ by decide)
        exact (h ▸ hfits).string
    obtain ⟨s, hs⟩ := hsome
    rw [if_pos (by simpa using hstring), hs]
    exact meets_value rfl nofun
  · have hnone : concatenate? l r = none := by
      unfold concatenate?
      split
      · exact absurd (.inl rfl) hstring
      · exact absurd (.inr rfl) hstring
      · rfl
    rw [if_neg (by simpa using hstring), hnone]
    exact meets_onNumbers hl hr rfl (fun _ _ => meets_value rfl nofun)
      fun x y => meets_ofArithmetic nofun (Decimal.isSum_add x y)

theorem meets_div (hl : l.IsForeign) (hr : r.IsForeign) :
    div.Meets l r (div.resultType? l.type r.type) (div.apply l r) := by
  refine meets_onNumbers hl hr rfl (fun x y => ?_) fun x y => ?_
  · have hzero : div.DividesByZero (.integer y) ↔ y = 0 := by simp [DividesByZero, number?]
    by_cases hy : y = 0
    · rw [if_pos hy]
      exact .inl ⟨rfl, hzero.mpr hy, rfl⟩
    · rw [if_neg hy]
      exact .inl ⟨rfl, mt hzero.mp hy⟩
  · have hzero : div.DividesByZero (.decimal y) ↔ y.isZero = true := by
      simp only [DividesByZero, number?_decimal, true_and]
    by_cases hy : y.isZero = true
    · rw [if_pos hy]
      exact .inl ⟨rfl, hzero.mpr hy, rfl⟩
    · rw [if_neg hy]
      exact .inl ⟨rfl, mt hzero.mp hy⟩

/-- The operators that evaluate both operands do what the analysis expects of them. -/
theorem meets_apply (hl : l.IsForeign) (hr : r.IsForeign) (hop : op ∈ known)
    (hdecisive : Run.decisive? op = none) :
    op.Meets l r (op.resultType? l.type r.type) (op.apply l r) := by
  cases op with
  | eq | ne | lt | le | gt | ge => exact meets_compare hl hr rfl
  | add => exact meets_add hl hr
  | sub =>
    exact meets_onNumbers hl hr rfl (fun _ _ => meets_value rfl nofun)
      fun x y => meets_ofArithmetic nofun (Decimal.isDifference_sub x y)
  | mul =>
    exact meets_onNumbers hl hr rfl (fun _ _ => meets_value rfl nofun)
      fun x y => meets_ofArithmetic nofun (Decimal.isProduct_mul x y)
  | div => exact meets_div hl hr
  | and | or => cases hdecisive
  | unknown => simp [known] at hop

end Operator

/-! ## Binary expressions -/

namespace Run

open Attempt Operator

variable {call : Call} {p : Position} {op : Operator} {left right : Expr} {m m₁ m₂ : Machine}
  {l r : Value}

theorem type_eq_boolean_iff {v : Value} (h : v.IsForeign) :
    v.type = .boolean ↔ ∃ b, v = .boolean b := by
  refine ⟨fun ht => ?_, ?_⟩
  · have hfits := h.fits (ht ▸ by decide)
    exact (ht ▸ hfits).boolean
  · rintro ⟨b, rfl⟩
    rfl

/-- The operand of a logical operator is a boolean, or the operation fails. -/
theorem ends_logical {v : Value} {Q : Bool → Machine → Prop} {E : Failure → Machine → Prop}
    (hboolean : ∀ b, v = .boolean b → Q b m)
    (hother : (∀ b, v ≠ .boolean b) → E (.of (.logicalOperand op.spelling v.kind)) m) :
    Ends (logical op v) m Q E := by
  cases v with
  | boolean b => exact hboolean b rfl
  | _ => exact hother nofun

section

variable (hop : op ∈ known) (hl : l.IsForeign) (hr : r.IsForeign)
  (hleft : expr call left m = .ok l m₁) (hright : expr call right m₁ = .ok r m₂)
include hop hl hr hleft hright

/-- An operation that the analysis accepts. -/
theorem ends_accepted {t : Ty} (ht : op.resultType? l.type r.type = some t)
    (hbounded : ¬ op.Overflows l r) :
    Ends (expr call (.binary p op left right)) m (fun v _ => v.type = t ∧ ¬ op.DividesByZero r)
      fun e _ => (∃ cause, e = .of cause ∧ cause.family = .arithmetic) ∧ op.DividesByZero r := by
  simp only [expr]
  split
  · rename_i decisive hdecisive
    obtain ⟨hleftType, hrightType, rfl⟩ := types_of_decisive hdecisive ht
    obtain ⟨a, rfl⟩ := (type_eq_boolean_iff hl).mp hleftType
    obtain ⟨b, rfl⟩ := (type_eq_boolean_iff hr).mp hrightType
    have hdiv : ¬ op.DividesByZero (.boolean b) := by
      simp [DividesByZero, Value.number?]
    refine ends_bind.mpr ((ends_eq_ok hleft).mpr ?_)
    refine ends_bind.mpr (ends_pure.mpr ?_)
    split
    · exact ⟨rfl, hdiv⟩
    · exact ends_bind.mpr ((ends_eq_ok hright).mpr ⟨rfl, hdiv⟩)
  · rename_i hdecisive
    refine ends_bind.mpr ((ends_eq_ok hleft).mpr ?_)
    refine ends_bind.mpr ((ends_eq_ok hright).mpr (ends_ofExcept.mpr ?_))
    have hmeets := meets_apply hl hr hop hdecisive
    rw [ht] at hmeets
    cases happly : op.apply l r with
    | ok v =>
      rw [happly] at hmeets
      obtain ⟨hsome, hzero⟩ | ⟨hnone, -⟩ := hmeets
      · exact ⟨(Option.some.inj hsome).symm, hzero⟩
      · cases hnone
    | error e =>
      rw [happly] at hmeets
      match e with
      | .cause cause =>
        obtain ⟨-, hzero, hfamily⟩ | ⟨hnone, -⟩ := hmeets
        · exact ⟨⟨cause, rfl, hfamily⟩, hzero⟩
        · cases hnone
      | .crash .decimalOverflow => exact absurd hmeets.2 hbounded
      | .crash .unorderedObject => cases hmeets.1

omit hop in
/-- A logical operation that the analysis refuses. Only the left operand may keep it from failing. -/
theorem ends_refused_logical {decisive : Bool} (hdecisive : decisive? op = some decisive)
    (ht : op.resultType? l.type r.type = none) :
    Ends (expr call (.binary p op left right)) m (fun v n => op.Decides l ∧ v = l ∧ n = m₁)
      fun e _ => (∃ cause, e = .of cause ∧ cause.family = .typeAssertion) ∧ ¬ op.Decides l := by
  simp only [expr, hdecisive]
  refine ends_bind.mpr ((ends_eq_ok hleft).mpr ?_)
  refine ends_bind.mpr (ends_logical (fun a ha => ?_) fun hother => ?_)
  · subst ha
    split
    · rename_i hdecides
      exact ⟨⟨a, hdecides ▸ hdecisive, rfl⟩, rfl, rfl⟩
    · rename_i hundecided
      refine ends_bind.mpr ((ends_eq_ok hright).mpr ?_)
      refine ends_bind.mpr (ends_logical (fun b hb => ?_) fun _ => ⟨⟨_, rfl, rfl⟩, ?_⟩)
      · rw [(type_eq_boolean_iff hl).mpr ⟨a, rfl⟩, (type_eq_boolean_iff hr).mpr ⟨b, hb⟩] at ht
        cases op <;> cases hdecisive <;> cases ht
      · rintro ⟨b, hb, ha⟩
        rw [hdecisive] at hb
        cases hb
        cases ha
        exact hundecided rfl
  · refine ⟨⟨_, rfl, rfl⟩, ?_⟩
    rintro ⟨b, -, hb⟩
    exact hother b hb

/-- Any other operation that the analysis refuses. -/
theorem ends_refused_applied (hdecisive : decisive? op = none)
    (ht : op.resultType? l.type r.type = none) :
    Ends (expr call (.binary p op left right)) m
      (fun v n => op.Misjudges l r ∧ op.isEquality = true ∧ (∃ b, v = .boolean b) ∧ n = m₂)
      fun e _ => (∃ cause, e = .of cause ∧ cause.family = .typeAssertion) ∧ ¬ op.Misjudges l r ∨
        op.Misjudges l r ∧ op.isEquality = false ∧ e = .crash .unorderedObject := by
  simp only [expr, hdecisive]
  refine ends_bind.mpr ((ends_eq_ok hleft).mpr ?_)
  refine ends_bind.mpr ((ends_eq_ok hright).mpr (ends_ofExcept.mpr ?_))
  have hmeets := meets_apply hl hr hop hdecisive
  rw [ht] at hmeets
  cases happly : op.apply l r with
  | ok v =>
    rw [happly] at hmeets
    obtain ⟨hsome, -⟩ | ⟨-, hmisjudges, hequality, hboolean⟩ := hmeets
    · cases hsome
    · exact ⟨hmisjudges, hequality, hboolean, rfl⟩
  | error e =>
    rw [happly] at hmeets
    match e with
    | .cause cause =>
      obtain ⟨hsome, -⟩ | ⟨-, hmisjudges, hfamily⟩ := hmeets
      · cases hsome
      · exact .inl ⟨⟨cause, rfl, hfamily⟩, hmisjudges⟩
    | .crash .decimalOverflow => cases hmeets.1
    | .crash .unorderedObject => exact .inr ⟨hmeets.2.1, hmeets.2.2, rfl⟩

/-- An operation that the analysis refuses. -/
theorem ends_refused (ht : op.resultType? l.type r.type = none) :
    Ends (expr call (.binary p op left right)) m
      (fun v n => op.Decides l ∧ v = l ∧ n = m₁ ∨
        op.Misjudges l r ∧ op.isEquality = true ∧ (∃ b, v = .boolean b) ∧ n = m₂)
      fun e _ => (∃ cause, e = .of cause ∧ cause.family = .typeAssertion) ∧ ¬ op.Decides l ∧
          ¬ op.Misjudges l r ∨
        op.Misjudges l r ∧ op.isEquality = false ∧ e = .crash .unorderedObject := by
  cases hdecisive : decisive? op with
  | some decisive =>
    have hmisjudges : ¬ op.Misjudges l r := fun h => by
      have hcomparison := h.comparison
      cases op <;> cases hdecisive <;> cases hcomparison
    refine (ends_refused_logical hl hr hleft hright hdecisive ht).imp (fun _ _ => .inl) ?_
    exact fun _ _ h => .inl ⟨h.1, h.2, hmisjudges⟩
  | none =>
    have hdecides : ¬ op.Decides l := by
      rintro ⟨b, hb, -⟩
      rw [hdecisive] at hb
      cases hb
    refine (ends_refused_applied hop hl hr hleft hright hdecisive ht).imp (fun _ _ => .inr) ?_
    exact fun _ _ => Or.imp_left fun h => ⟨h.1, hdecides, h.2⟩

end

/-- Wherever the operands of an operation have values, the operation goes as the analysis has it for
the types of these values, unless its exact result is too large for the limits of the operators. An
object whose type has the name of an ordered one is let through where it is compared with a value of
that kind: the analysis refuses this, but there is an answer to the question whether they are equal,
and a crash if they are to be put in an order. Registered types are no such types
(`Operator.not_misjudges`). -/
theorem ends_binary (hop : op ∈ known) (hl : l.IsForeign) (hr : r.IsForeign)
    (hleft : expr call left m = .ok l m₁) (hright : expr call right m₁ = .ok r m₂) :
    match op.resultType l.type r.type with
    | .ok t => ¬ op.Overflows l r → Ends (expr call (.binary p op left right)) m
      (fun v _ => v.type = t ∧ ¬ op.DividesByZero r)
      fun e _ => (∃ cause, e = .of cause ∧ cause.family = .arithmetic) ∧ op.DividesByZero r
    | .error cause => cause.family = .typeMismatch ∧ Ends (expr call (.binary p op left right)) m
      (fun v n => op.Decides l ∧ v = l ∧ n = m₁ ∨
        op.Misjudges l r ∧ op.isEquality = true ∧ (∃ b, v = .boolean b) ∧ n = m₂)
      fun e _ => (∃ cause, e = .of cause ∧ cause.family = .typeAssertion) ∧ ¬ op.Decides l ∧
          ¬ op.Misjudges l r ∨
        op.Misjudges l r ∧ op.isEquality = false ∧ e = .crash .unorderedObject := by
  unfold resultType
  cases ht : op.resultType? l.type r.type with
  | some t => exact ends_accepted hop hl hr hleft hright ht
  | none => exact ⟨rfl, ends_refused hop hl hr hleft hright ht⟩

theorem ends_binary_quotient :
    Operator.div ∈ known ∧ (Value.integer 7).IsForeign ∧ (Value.integer 0).IsForeign ∧
      Operator.div.resultType .integer .integer = .ok .integer ∧
      ¬ div.Overflows (.integer 7) (.integer 0) ∧
      Ends (expr (invoke 0) (.binary .start .div (.literal .start (.integer 7 "7"))
          (.literal .start (.integer 0 "0"))))
        (.start .initial none) (fun v _ => v.type = .integer ∧ ¬ div.DividesByZero (.integer 0))
        fun e _ => (∃ cause, e = .of cause ∧ cause.family = .arithmetic) ∧
          div.DividesByZero (.integer 0) := by
  have hop : Operator.div ∈ known := by decide
  have hl : (Value.integer 7).IsForeign := nofun
  have hr : (Value.integer 0).IsForeign := nofun
  have hbounded : ¬ div.Overflows (.integer 7) (.integer 0) := by
    rintro ⟨a, b, s, ha, -⟩
    cases ha
  exact ⟨hop, hl, hr, rfl, hbounded, ends_binary hop hl hr rfl rfl hbounded⟩

end Run

namespace Operator

/-- Where the analysis refuses to compare an object with an integer, one whose type is named so is
not equal to it, and its place in an order is asked for in vain. Where the analysis has a decimal,
the square of a number that is large enough is too large. -/
theorem apply_misjudged :
    let object : Value := .object (.custom 0 "Integer") ⟨0⟩
    let large : Value := .decimal ⟨false, 1, 600000000000000000⟩
    object.IsForeign ∧
    eq.resultType object.type .integer = .error (.operandTypes "==" "Integer" "Integer") ∧
    eq.apply object (.integer 3) = .ok (.boolean false) ∧
    lt.resultType object.type .integer = .error (.operandTypes "<" "Integer" "Integer") ∧
    lt.apply object (.integer 3) = .error (.crash .unorderedObject) ∧
    mul.resultType large.type large.type = .ok .decimal ∧
    mul.apply large large = .error (.crash .decimalOverflow) := by
  refine ⟨?_, rfl, by decide +kernel, rfl, by decide +kernel, rfl, by decide +kernel⟩
  rintro _ _ ⟨⟩
  decide

end Operator

end BlockScript
