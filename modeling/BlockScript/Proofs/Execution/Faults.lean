import BlockScript.Proofs.Execution.Growth
import BlockScript.Proofs.Pass.Safety
import BlockScript.Proofs.Soundness.Values
import BlockScript.Proofs.Syntax.Vocabulary
import BlockScript.Toolchain

/-!
# How runs fail

A run fails with a cause that only a run can have, with a name that is not defined, with a type name
that no type has, or because a decimal gets too large. The last two of these are no matters of
running: a type name comes up only if the program writes one that is none of the built-in types, and
what is too large is no diagnostic at all. What messages quote are words of the program and of the
language.
-/

namespace BlockScript

open Attempt Pass

/-- The cause of a failing run whose program has words as `W` and type names as `T` says. -/
structure Cause.IsFault (W T : String → Prop) (c : Cause) : Prop where
  words : ∀ w ∈ c.words, W w
  family : c.family.isDynamic = true ∨ c.family.isUndefinedName = true ∨
    ∃ name, T name ∧ (∀ t ∈ Ty.builtIn, t.name ≠ name) ∧ c = .unknownType name

/-- A run fails with such a cause, or a decimal has got too large, or it has run out of fuel. -/
def Failure.IsFault (W T : String → Prop) (e : Failure) : Prop :=
  e = .outOfFuel ∨ e = .crash .decimalOverflow ∨ e.Diagnoses (Cause.IsFault W T)

/-- What a function may do when a machine calls it. -/
def Body.IsTame (W T : String → Prop) (name : String) : Body → Prop
  | .absent => W name
  | .native run => ∀ args, (∀ v ∈ args, v.IsPlain) →
    (∀ v, run args = .ok v → v.IsPlain) ∧
      ∀ e, run args = .error e → (Failing.failure e).IsFault W T
  | .print => True
  | .method d _ => d.Uses W T

/-- Values are those of the language, functions do what is expected of them, and the names of the
built-in types mean these. -/
structure Store.IsTame (W T : String → Prop) (s : Store) : Prop where
  values : ∀ v w, (s.slot v).value = some w → w.IsPlain
  functions : ∀ f, (s.function f).body.IsTame W T (s.function f).name
  catalog : ∀ t ∈ Ty.builtIn, s.catalog.find? t.name = some t

variable {W T : String → Prop}

theorem Failure.IsFault.locate {e : Failure} (h : e.IsFault W T) (p : Position) :
    (e.locate p).IsFault W T := by
  rcases h with rfl | rfl | h
  · exact .inl rfl
  · exact .inr (.inl rfl)
  · exact .inr (.inr (h.locate p))

theorem Cause.IsFault.failure {c : Cause} (h : c.IsFault W T) : (Failure.of c).IsFault W T :=
  .inr (.inr h)

theorem Cause.isFault_of_isDynamic {c : Cause} (h : c.family.isDynamic = true)
    (hwords : ∀ w ∈ c.words, W w) : c.IsFault W T :=
  ⟨hwords, .inl h⟩

theorem Cause.isFault_of_isUndefinedName {c : Cause} (h : c.family.isUndefinedName = true)
    (hwords : ∀ w ∈ c.words, W w) : c.IsFault W T :=
  ⟨hwords, .inr (.inl h)⟩

theorem Vocabulary.kind (hW : Vocabulary W T) {v : Value} (h : v.IsPlain) : W v.kind :=
  hW.type _ (Value.type_mem_builtIn h)

/-! ## Built-in functions -/

section

variable {ε α β : Type} [Failing ε]

/-- What fails only with faults. -/
def Faults (W T : String → Prop) (x : Except ε α) : Prop :=
  ∀ e, x = .error e → (Failing.failure e).IsFault W T

theorem faults_ok (a : α) : Faults W T (.ok a : Except ε α) := nofun

theorem faults_error {e : ε} (h : (Failing.failure e).IsFault W T) :
    Faults W T (.error e : Except ε α) := by
  rintro _ ⟨⟩
  exact h

theorem Faults.bind {x : Except ε α} {k : α → Except ε β} (hx : Faults W T x)
    (hk : ∀ a, Faults W T (k a)) : Faults W T (x >>= k) := by
  intro e he
  rcases Store.bind_eq_error.mp he with he | ⟨a, -, he⟩
  · exact hx e he
  · exact hk a e he

end

theorem faults_ofArithmetic (result : Option Decimal) :
    Faults W T (Value.ofArithmetic result) := by
  cases result with
  | some d => exact faults_ok _
  | none => exact faults_error (.inr (.inl rfl))

namespace Native

variable (hW : Vocabulary W T) {args : List Value} (hargs : ∀ v ∈ args, v.IsPlain)

include hargs in
theorem plain_argument (i : Nat) : (argument args i).IsPlain := by
  rw [argument, List.getD_eq_getElem?_getD]
  cases h : args[i]? with
  | none => exact trivial
  | some v => exact hargs v (List.mem_of_getElem? h)

include hW

theorem isFault_notOfKind {t : Ty} (ht : t ∈ Ty.builtIn) {v : Value} (hv : v.IsPlain) :
    (Cause.notOfKind t.name v.kind).IsFault W T :=
  Cause.isFault_of_isDynamic rfl (by simpa [Cause.words] using ⟨hW.type t ht, hW.kind hv⟩)

theorem faults_asString {v : Value} (hv : v.IsPlain) : Faults W T (asString v) := by
  unfold asString
  split
  · exact faults_ok _
  · exact faults_error (isFault_notOfKind hW (by decide) hv).failure

theorem faults_asInteger {v : Value} (hv : v.IsPlain) : Faults W T (asInteger v) := by
  unfold asInteger
  split
  · exact faults_ok _
  · exact faults_error (isFault_notOfKind hW (by decide) hv).failure

theorem faults_asDecimal {v : Value} (hv : v.IsPlain) : Faults W T (asDecimal v) := by
  unfold asDecimal
  split
  · exact faults_ok _
  · exact faults_error (isFault_notOfKind hW (by decide) hv).failure

include hargs

theorem faults_range : Faults W T (range args) :=
  (faults_asInteger hW (plain_argument hargs 0)).bind fun _ =>
    (faults_asInteger hW (plain_argument hargs 1)).bind fun _ => faults_ok _

theorem faults_stringLength : Faults W T (stringLength args) :=
  (faults_asString hW (plain_argument hargs 0)).bind fun _ => faults_ok _

theorem faults_stringCharAt : Faults W T (stringCharAt args) := by
  refine (faults_asString hW (plain_argument hargs 0)).bind fun s => ?_
  refine (faults_asInteger hW (plain_argument hargs 1)).bind fun i => ?_
  split
  · exact faults_ok _
  · exact faults_error (Cause.isFault_of_isDynamic rfl nofun).failure

theorem faults_stringSubstring : Faults W T (stringSubstring args) := by
  have hslice (s : String) (start stop : Int) :
      Faults W T (if start < 0 || s.length < stop || stop < start then
        .error (Breakdown.cause (.sliceOutOfRange start stop s.length))
      else .ok (Value.string (String.ofList ((s.toList.take stop.toNat).drop start.toNat)))) := by
    split
    · exact faults_error (Cause.isFault_of_isDynamic rfl nofun).failure
    · exact faults_ok _
  refine (faults_asString hW (plain_argument hargs 0)).bind fun s => ?_
  refine (faults_asInteger hW (plain_argument hargs 1)).bind fun start => ?_
  split
  · exact (faults_asInteger hW (plain_argument hargs 2)).bind fun stop => hslice s start stop
  · exact hslice s start s.length

theorem faults_integerAbs : Faults W T (integerAbs args) :=
  (faults_asInteger hW (plain_argument hargs 0)).bind fun _ => faults_ok _

theorem faults_decimalAbs : Faults W T (decimalAbs args) :=
  (faults_asDecimal hW (plain_argument hargs 0)).bind fun _ => faults_ofArithmetic _

end Native

/-! ## Operators -/

namespace Operator

variable {op : Operator} {a b : Value}

theorem faults_operandError (hW : Vocabulary W T) (hop : W op.spelling) (ha : a.IsPlain)
    (hb : b.IsPlain) : Faults W T (op.operandError a b) := by
  refine faults_error (Cause.isFault_of_isDynamic rfl ?_).failure
  simpa [Cause.words] using ⟨hop, hW.kind ha, hW.kind hb⟩

theorem faults_compare (hW : Vocabulary W T) (hop : W op.spelling) (ha : a.IsPlain)
    (hb : b.IsPlain) : Faults W T (op.compare a b) := by
  unfold compare
  rw [ha.isObject, hb.isObject, Bool.or_false, Bool.not_false, Bool.or_true, if_pos rfl]
  split
  · exact faults_ok _
  · exact faults_operandError hW hop ha hb

theorem faults_onNumbers (hW : Vocabulary W T) (hop : W op.spelling) (ha : a.IsPlain)
    (hb : b.IsPlain) {integers : Int → Int → Except Breakdown Value}
    {decimals : Decimal → Decimal → Except Breakdown Value} (hi : ∀ x y, Faults W T (integers x y))
    (hd : ∀ x y, Faults W T (decimals x y)) : Faults W T (op.onNumbers integers decimals a b) := by
  unfold onNumbers
  split
  · exact hi _ _
  · exact hd _ _
  · exact faults_operandError hW hop ha hb

theorem faults_apply (hW : Vocabulary W T) (hop : W op.spelling) (ha : a.IsPlain)
    (hb : b.IsPlain) : Faults W T (op.apply a b) := by
  have hnumbers {integers decimals} (hi : ∀ x y, Faults W T (integers x y))
      (hd : ∀ x y, Faults W T (decimals x y)) : Faults W T (op.onNumbers integers decimals a b) :=
    faults_onNumbers hW hop ha hb hi hd
  have hzero {c : Prop} [Decidable c] (v : Value) :
      Faults W T (if c then Except.error (Breakdown.cause .divisionByZero) else .ok v) := by
    split
    · exact faults_error (Cause.isFault_of_isDynamic rfl nofun).failure
    · exact faults_ok _
  cases op with
  | eq | ne | lt | le | gt | ge =>
    exact faults_compare hW hop ha hb
  | add =>
    unfold apply
    dsimp only
    split
    · exact faults_ok _
    · exact hnumbers (fun _ _ => faults_ok _) fun _ _ => faults_ofArithmetic _
  | sub | mul => exact hnumbers (fun _ _ => faults_ok _) fun _ _ => faults_ofArithmetic _
  | div => exact hnumbers (fun _ _ => hzero _) fun _ _ => hzero _
  | and | or | unknown =>
    exact faults_error (Cause.isFault_of_isDynamic rfl (by simpa [Cause.words] using hop)).failure

/-- Whatever an operation gives belongs to the language, also where an operand does not. -/
theorem plain_apply {v : Value} (h : op.apply a b = .ok v) : v.IsPlain := by
  have hnumbers {integers : Int → Int → Except Breakdown Value}
      {decimals : Decimal → Decimal → Except Breakdown Value}
      (hi : ∀ x y, integers x y = .ok v → v.IsPlain) (hd : ∀ x y, decimals x y = .ok v → v.IsPlain)
      (h : op.onNumbers integers decimals a b = .ok v) : v.IsPlain := by
    unfold onNumbers at h
    split at h
    · exact hi _ _ h
    · exact hd _ _ h
    · cases h
  have hinteger {n : Int} (h : Except.ok (ε := Breakdown) (Value.integer n) = .ok v) :
      v.IsPlain := by
    cases h
    trivial
  have hdecimal {d : Decimal} (h : Except.ok (ε := Breakdown) (Value.decimal d) = .ok v) :
      v.IsPlain := by
    cases h
    trivial
  have hrounded {result : Option Decimal} (h : Value.ofArithmetic result = .ok v) : v.IsPlain :=
    (Value.fits_of_ofArithmetic h).plain
  cases op with
  | eq | ne | lt | le | gt | ge =>
    obtain rfl := eq_boolean_of_compare h
    trivial
  | add =>
    unfold apply at h
    dsimp only at h
    split at h
    · rename_i hconcatenate
      cases h
      exact (fits_of_concatenate hconcatenate).1.plain
    · exact hnumbers (fun _ _ => hinteger) (fun _ _ => hrounded) h
  | sub | mul => exact hnumbers (fun _ _ => hinteger) (fun _ _ => hrounded) h
  | div =>
    refine hnumbers (fun x y hxy => ?_) (fun x y hxy => ?_) h
    · split at hxy
      · cases hxy
      · exact hinteger hxy
    · split at hxy
      · cases hxy
      · exact hdecimal hxy
  | and | or | unknown => cases h

end Operator

/-! ## Stores -/

namespace Store

variable {s : Store}

theorem isTame_initial (hW : Vocabulary W T) : initial.IsTame W T := by
  have hall : ∀ fn ∈ initial.functions.toList, fn.body.IsTame W T fn.name := by
    rw [functions_initial]
    simp only [List.forall_mem_cons, List.forall_mem_map, builtInMethods]
    refine ⟨fun _ h => ⟨fun _ hv => (Native.fits_range hv).plain, Native.faults_range hW h⟩,
      fun _ h => ⟨fun _ hv => (Native.fits_stringLength hv).plain, Native.faults_stringLength hW h⟩,
      fun _ h => ⟨fun _ hv => (Native.fits_stringCharAt hv).plain, Native.faults_stringCharAt hW h⟩,
      fun _ h => ⟨fun _ hv => (Native.fits_stringSubstring hv).plain,
        Native.faults_stringSubstring hW h⟩,
      fun _ h => ⟨fun _ hv => (Native.fits_stringSubstring hv).plain,
        Native.faults_stringSubstring hW h⟩,
      fun _ h => ⟨fun _ hv => (Native.fits_integerAbs hv).plain, Native.faults_integerAbs hW h⟩,
      fun _ h => ⟨fun _ hv => (Native.fits_decimalAbs hv).plain, Native.faults_decimalAbs hW h⟩,
      List.forall_mem_nil _⟩
  refine ⟨fun v w hw => ?_, fun f => ?_, by decide +kernel⟩
  · have hnone : initial.slot v = ⟨"", .any, none⟩ := rfl
    rw [hnone] at hw
    cases hw
  · rw [function, Array.getD_eq_getD_getElem?]
    cases hf : initial.functions[f.index]? with
    | none => exact hW.empty
    | some fn => exact hall fn (Array.mem_toList_iff.mpr (Array.mem_of_getElem? hf))

theorem IsTame.createFrame (h : s.IsTame W T) (parent : Option FrameId) :
    (s.createFrame parent).2.IsTame W T :=
  ⟨h.values, h.functions, h.catalog⟩

theorem IsTame.defineSlot (h : s.IsTame W T) (f : FrameId) {slot : Slot}
    (hslot : ∀ w, slot.value = some w → w.IsPlain) : (s.defineSlot f slot).2.IsTame W T := by
  refine ⟨fun v w hw => ?_, h.functions, h.catalog⟩
  have hv := slot_createSlot s slot v
  rw [show (s.defineSlot f slot).2.slot v = _ from hv] at hw
  split at hw
  · exact hslot w hw
  · exact h.values v w hw

theorem IsTame.assign (h : s.IsTame W T) (v : SlotId) {value : Value} (hvalue : value.IsPlain) :
    (s.assign v value).IsTame W T := by
  refine ⟨fun u w hw => ?_, h.functions, h.catalog⟩
  rw [slot_assign] at hw
  split at hw
  · cases hw
    exact hvalue
  · exact h.values u w hw

theorem IsTame.defineFunction (h : s.IsTame W T) (f : FrameId) (fn : Function)
    (hfn : fn.body.IsTame W T fn.name) : (s.defineFunction f fn).2.IsTame W T := by
  refine ⟨h.values, fun g => ?_, h.catalog⟩
  rw [function_defineFunction]
  split
  · exact hfn
  · exact h.functions g

theorem IsTame.createRoot (h : s.IsTame W T) (parent : Option FrameId) (printing : Body)
    (hprinting : printing.IsTame W T "print") : (s.createRoot parent printing).2.IsTame W T := by
  have hprint := (h.createFrame parent).defineFunction ⟨s.frames.size⟩ (printFunction printing)
    hprinting
  exact ⟨hprint.values, hprint.functions, hprint.catalog⟩

end Store

/-! ## Names of types -/

namespace Store

variable {s : Store}

theorem faults_namedType (hW : Vocabulary W T) (hs : s.IsTame W T) {name : Option String}
    (hname : ∀ t ∈ name, T t) : Faults W T (s.namedType name) := by
  cases name with
  | none => exact faults_ok _
  | some name =>
    refine Faults.bind ?_ fun _ => faults_ok _
    unfold lookupType
    split
    · exact faults_ok _
    · rename_i hfind
      have hT := hname name rfl
      have hwords : ∀ w ∈ (Cause.unknownType name).words, W w := by
        simpa [Cause.words] using hW.named name hT
      refine faults_error (Cause.IsFault.failure ⟨hwords, .inr (.inr ⟨name, hT, ?_, rfl⟩)⟩)
      rintro t ht rfl
      rw [hs.catalog t ht] at hfind
      cases hfind

theorem faults_typeOrAny (hW : Vocabulary W T) (hs : s.IsTame W T) {name : Option String}
    (hname : ∀ t ∈ name, T t) : Faults W T (s.typeOrAny name) :=
  (faults_namedType hW hs hname).bind fun _ => faults_ok _

theorem faults_paramTypes (hW : Vocabulary W T) (hs : s.IsTame W T) {ps : List Param}
    (hps : ∀ p ∈ ps, p.Uses W T) : Faults W T (s.paramTypes ps) := by
  induction ps with
  | nil => exact faults_ok _
  | cons p ps ih =>
    rw [List.forall_mem_cons] at hps
    exact (faults_typeOrAny hW hs hps.1.2).bind fun _ => (ih hps.2).bind fun _ => faults_ok _

end Store

/-! ## Expressions -/

namespace Run

/-- On a tame store the run gives a result as `P` says or fails with a fault. -/
abbrev Behaves (W T : String → Prop) {α : Type} (x : Run α) (P : α → Prop) : Prop :=
  Safe (Store.IsTame W T) (Failure.IsFault W T) x P

variable {ε α : Type} [Failing ε] {x : Run α} {P : α → Prop}

theorem behaves_ofExcept {y : Except ε α} (hok : ∀ r, y = .ok r → P r) (hy : Faults W T y) :
    Behaves W T (ofExcept y) P :=
  safe_ofExcept hok hy

theorem behaves_fail {c : Cause} (h : c.IsFault W T) : Behaves W T (fail c : Run α) P :=
  safe_fail h.failure

theorem behaves_locate {p : Position} (h : Behaves W T x P) : Behaves W T (locate p x) P :=
  h.locate fun _ p he => he.locate p

theorem behaves_literal {value : Literal} (h : value.Uses W) :
    Behaves W T (literal value) Value.IsPlain := by
  cases value with
  | character text =>
    obtain ⟨c, hc⟩ := h
    have hvalue : Value.ofCharacterText text = .ok (.character c) := by
      unfold Value.ofCharacterText
      rw [hc]
    unfold literal
    dsimp only
    rw [hvalue]
    exact safe_pure trivial
  | _ => exact safe_pure trivial

theorem behaves_slot {id : String} (hid : W id) :
    Behaves W T (ask fun s f => s.lookupSlot f id) fun _ => True := by
  refine safe_ask (fun _ _ _ _ _ => trivial) fun s f c _ hc => ?_
  unfold Store.lookupSlot at hc
  split at hc
  · cases hc
  · cases hc
    exact (Cause.isFault_of_isUndefinedName rfl (by simpa [Cause.words] using hid)).failure

theorem behaves_function {name : String} (hname : W name) (arity : Nat) :
    Behaves W T (ask fun s f => s.lookupFunction f name arity) fun _ => True := by
  refine safe_ask (fun _ _ _ _ _ => trivial) fun s f c _ hc => ?_
  unfold Store.lookupFunction at hc
  split at hc
  · cases hc
  · cases hc
    exact (Cause.isFault_of_isUndefinedName rfl (by simpa [Cause.words] using hname)).failure

theorem behaves_read (v : SlotId) : Behaves W T (read v) Value.IsPlain := by
  refine safe_get.bind fun a ha => safe_pure ?_
  cases hv : (a.store.slot v).value with
  | none => trivial
  | some w => exact ha.2.values v w hv

section

variable (hW : Vocabulary W T)
include hW

/-- No value of the language has a field. -/
theorem behaves_field {name : String} (hname : W name) {v : Value} (hv : v.IsPlain) :
    Behaves W T (field name v) fun _ => True := by
  unfold field
  split
  · exact hv.elim
  · refine behaves_fail (Cause.isFault_of_isUndefinedName rfl ?_)
    simpa [Cause.words] using ⟨hW.kind hv, hname⟩

theorem behaves_lookupMethod {name : String} (hname : W name) {v : Value} (hv : v.IsPlain)
    (arguments : Nat) : Behaves W T (lookupMethod v name arguments) fun _ => True := by
  refine safe_ask (fun _ _ _ _ _ => trivial) fun s f c _ hc => ?_
  split at hc
  · cases hc
  · cases hc
    refine (Cause.isFault_of_isUndefinedName rfl ?_).failure
    simpa [Cause.words] using ⟨hW.kind hv, hname⟩

theorem behaves_logical {op : Operator} (hop : W op.spelling) {v : Value} (hv : v.IsPlain) :
    Behaves W T (logical op v) fun _ => True := by
  cases v with
  | boolean b => exact safe_pure trivial
  | _ =>
    refine behaves_fail (Cause.isFault_of_isDynamic rfl ?_)
    simpa [Cause.words] using ⟨hop, hW.kind hv⟩

variable {call : Call}

omit hW in
theorem behaves_exprs {es : List Expr} (h : ∀ e ∈ es, Behaves W T (expr call e) Value.IsPlain) :
    Behaves W T (exprs call es) fun vs => ∀ v ∈ vs, v.IsPlain := by
  induction es with
  | nil => exact safe_pure nofun
  | cons e es ih =>
    rw [List.forall_mem_cons] at h
    exact h.1.bind fun v hv => (ih h.2).bind fun vs hvs =>
      safe_pure (List.forall_mem_cons.mpr ⟨hv, hvs⟩)

variable (hcall : ∀ f args, (∀ v ∈ args, v.IsPlain) → Behaves W T (call f args) Value.IsPlain)
include hcall

theorem behaves_expr {e : Expr} (h : e.Uses W) : Behaves W T (expr call e) Value.IsPlain := by
  induction e with
  | literal p value => exact behaves_literal h
  | group p inner ih => exact ih h
  | binary p op left right hl hr =>
    obtain ⟨hop, hleft, hright⟩ := h
    rw [expr]
    split
    · refine (hl hleft).bind fun a ha => (behaves_logical hW hop ha).bind fun _ _ => ?_
      refine .ite (safe_pure trivial) ((hr hright).bind fun b hb => ?_)
      exact (behaves_logical hW hop hb).bind fun _ _ => safe_pure trivial
    · refine (hl hleft).bind fun a ha => (hr hright).bind fun b hb => ?_
      exact behaves_ofExcept (fun v hv => op.plain_apply hv) (op.faults_apply hW hop ha hb)
  | name p id => exact (behaves_slot h).bind fun v _ => behaves_read v
  | member p receiver id ih =>
    refine (ih h.1).bind fun v hv => (behaves_field hW h.2 hv).bind fun v _ => ?_
    exact behaves_read v
  | call p id arguments ih =>
    have harguments := (Expr.allUse_iff W arguments).mp h.2
    refine (behaves_exprs fun e he => ih e he (harguments e he)).bind fun args hargs => ?_
    exact (behaves_function h.1 _).bind fun f _ => hcall f args hargs
  | methodCall p receiver id arguments hr ih =>
    have harguments := (Expr.allUse_iff W arguments).mp h.2.2
    refine (hr h.1).bind fun v hv => ?_
    refine (behaves_exprs fun e he => ih e he (harguments e he)).bind fun args hargs => ?_
    refine (behaves_lookupMethod hW h.2.1 hv _).bind fun f _ => ?_
    exact hcall f (v :: args) (List.forall_mem_cons.mpr ⟨hv, hargs⟩)
  | unknown p label =>
    have hlabel : W label := h
    exact behaves_fail (Cause.isFault_of_isDynamic rfl (by simpa [Cause.words] using hlabel))

/-! ## Statements -/

theorem behaves_condition {e : Expr} (h : e.Uses W) :
    Behaves W T (condition call e) fun _ => True := by
  refine (behaves_expr hW hcall h).bind fun v hv => ?_
  cases v with
  | boolean b => exact safe_pure trivial
  | _ =>
    refine behaves_fail (Cause.isFault_of_isDynamic rfl ?_)
    simpa [Cause.words] using hW.kind hv

theorem behaves_initial {b : Binding} (h : b.Uses W T) :
    Behaves W T (initial call b) fun r => r.1.IsPlain := by
  have htype (value : Value) (hvalue : value.IsPlain) :
      Behaves W T (do return (value, ← declaredType b.type value)) fun r => r.1.IsPlain := by
    have hnamed : Behaves W T (ask fun s _ => s.namedType b.type) fun _ => True :=
      safe_ask (fun _ _ _ _ _ => trivial) fun s _ c hs hc =>
        Store.faults_namedType hW hs h.2.1 c hc
    have hdeclared : Behaves W T (declaredType b.type value) fun _ => True :=
      hnamed.bind fun _ _ => safe_pure trivial
    exact hdeclared.bind fun _ _ => safe_pure hvalue
  unfold initial
  cases hb : b.value with
  | none => exact htype .nil trivial
  | some e => exact (behaves_expr hW hcall (h.2.2 e hb)).bind fun value hvalue => htype value hvalue

omit hW hcall in
theorem behaves_define {name : String} {type : Ty} {value : Value} (h : value.IsPlain) :
    Behaves W T (define name type (some value)) fun _ => True := by
  refine safe_define fun s f hs => hs.defineSlot f ?_
  rintro w ⟨⟩
  exact h

theorem behaves_declare {b : Binding} (h : b.Uses W T) :
    Behaves W T (declare call b) fun _ => True :=
  (behaves_initial hW hcall h).bind fun _ hr => (behaves_define hr).bind fun _ _ =>
    safe_pure trivial

theorem behaves_target {e : Expr} (h : e.Uses W) : Behaves W T (target call e) fun _ => True := by
  cases e with
  | name p id => exact behaves_slot h
  | member p receiver id =>
    exact (behaves_expr hW hcall h.1).bind fun v hv => behaves_field hW h.2 hv
  | _ => exact behaves_fail (Cause.isFault_of_isDynamic rfl nofun)

theorem behaves_assign {receiver value : Expr} (hreceiver : receiver.Uses W)
    (hvalue : value.Uses W) :
    Behaves W T (assign call receiver value) fun _ => True :=
  (behaves_target hW hcall hreceiver).bind fun _ _ =>
    (behaves_expr hW hcall hvalue).bind fun _ hv =>
    safe_assign fun _ hs => hs.assign _ hv

end

end Run

/-- What a statement returns belongs to the language. -/
def Completion.IsPlain : Completion → Prop
  | .next => True
  | .returned value => value.IsPlain

namespace Run

variable {α : Type} {x : Run α} {P : α → Prop} {call : Call} {fuel : Nat}

section

variable {J : Store → Prop} {E : Failure → Prop} {ρ : Type} {P : Completion → Prop}

theorem safe_forLoop {body : Int → Attempt (Pass ρ) Completion} (hnext : P .next)
    (h : ∀ i, Safe J E (body i) P) (count : Nat) (i : Int) : Safe J E (forLoop body count i) P := by
  induction count generalizing i with
  | zero => exact safe_pure hnext
  | succ count ih =>
    refine (h i).bind fun completion hcompletion => ?_
    cases completion with
    | next => exact ih (i + 1)
    | returned value => exact safe_pure hcompletion

theorem safe_whileLoop {test : Attempt (Pass ρ) Bool} {body : Attempt (Pass ρ) Completion}
    (hnext : P .next) (hfuel : E .outOfFuel) (htest : Safe J E test fun _ => True)
    (hbody : Safe J E body P) (fuel : Nat) : Safe J E (whileLoop test body fuel) P := by
  induction fuel with
  | zero => exact safe_throw hfuel
  | succ fuel ih =>
    refine htest.bind fun _ _ => .ite (hbody.bind fun completion hcompletion => ?_)
      (safe_pure hnext)
    cases completion with
    | next => exact ih
    | returned value => exact safe_pure hcompletion

end

theorem behaves_stmts {ss : List Stmt}
    (h : ∀ s ∈ ss, Behaves W T (stmt call fuel s) Completion.IsPlain) :
    Behaves W T (stmts call fuel ss) Completion.IsPlain := by
  induction ss with
  | nil => exact safe_pure trivial
  | cons s ss ih =>
    rw [List.forall_mem_cons] at h
    refine h.1.bind fun completion hcompletion => ?_
    cases completion with
    | next => exact ih h.2
    | returned value => exact safe_pure hcompletion

theorem behaves_inScope (hkeeps : Keeps (Steps true) x) (hx : Behaves W T x P) :
    Behaves W T (inScope x) P :=
  safe_inScope (fun _ parent h => h.createFrame parent) hkeeps hx

section

variable (hW : Vocabulary W T) (hkeeps : ∀ f args, Keeps (Steps false) (call f args))
  (hcall : ∀ f args, (∀ v ∈ args, v.IsPlain) → Behaves W T (call f args) Value.IsPlain)
include hW hkeeps hcall

theorem behaves_stmt {s : Stmt} (h : s.Uses W T) :
    Behaves W T (stmt call fuel s) Completion.IsPlain := by
  have hstmts (ss : List Stmt) : Keeps (Steps true) (stmts call fuel ss) :=
    keeps_stmts fun s _ => keeps_stmt hkeeps s
  induction s with
  | expression p value =>
    exact behaves_locate ((behaves_expr hW hcall h).bind fun _ _ => safe_pure trivial)
  | declare b =>
    exact behaves_locate ((behaves_declare hW hcall h).bind fun _ _ => safe_pure trivial)
  | assign p receiver value =>
    exact behaves_locate ((behaves_assign hW hcall h.1 h.2).bind fun _ _ => safe_pure trivial)
  | conditional p condition thenBody elseBody ht he =>
    obtain ⟨hc, h₁, h₂⟩ := h
    rw [Stmt.allUse_iff] at h₁ h₂
    refine behaves_locate ((behaves_condition hW hcall hc).bind fun _ _ => .ite ?_ ?_)
    · exact behaves_inScope (hstmts _) (behaves_stmts fun s hs => ht s hs (h₁ s hs))
    · exact behaves_inScope (hstmts _) (behaves_stmts fun s hs => he s hs (h₂ s hs))
  | forLoop p name iterable body ih =>
    obtain ⟨-, hi, hb⟩ := h
    rw [Stmt.allUse_iff] at hb
    refine behaves_locate ((behaves_expr hW hcall hi).bind fun v hv => ?_)
    cases v with
    | range start stop =>
      refine safe_forLoop trivial (fun i => behaves_inScope ?_ ?_) _ _
      · exact (keeps_define _ _ _).bind fun _ => hstmts body
      · refine Safe.bind (P := fun _ => True) (behaves_define trivial) fun _ _ => ?_
        exact behaves_stmts fun s hs => ih s hs (hb s hs)
    | _ =>
      refine behaves_fail (Cause.isFault_of_isDynamic rfl ?_)
      simpa [Cause.words] using hW.kind hv
  | whileLoop p condition body ih =>
    obtain ⟨hc, hb⟩ := h
    rw [Stmt.allUse_iff] at hb
    have htest := behaves_condition hW hcall hc
    refine behaves_locate (safe_whileLoop trivial (.inl rfl) htest ?_ fuel)
    exact behaves_inScope (hstmts body) (behaves_stmts fun s hs => ih s hs (hb s hs))
  | ret p value =>
    exact behaves_locate ((behaves_expr hW hcall h).bind fun _ hv => safe_pure hv)
  | unknown p label =>
    have hlabel : W label := h
    exact behaves_locate (behaves_fail (Cause.isFault_of_isDynamic rfl
      (by simpa [Cause.words] using hlabel)))

end

/-! ## Calls -/

theorem behaves_defineParams (ps : List Param) (types : List Ty) {args : List Value}
    (hargs : ∀ v ∈ args, v.IsPlain) : Behaves W T (defineParams ps types args) fun _ => True := by
  induction ps generalizing types args with
  | nil =>
    unfold defineParams
    exact safe_pure trivial
  | cons p ps ih =>
    cases types with
    | nil => exact safe_pure trivial
    | cons type types =>
      cases args with
      | nil => exact safe_pure trivial
      | cons arg args =>
        rw [List.forall_mem_cons] at hargs
        exact (behaves_define hargs.1).bind fun _ _ => ih types hargs.2

variable {body : List Stmt → Run Completion}

/-- A call does what the body of the function does. -/
theorem behaves_dispatch (hkeeps : ∀ ss, Keeps (Steps true) (body ss))
    (hbody : ∀ ss, (∀ s ∈ ss, s.Uses W T) → Behaves W T (body ss) Completion.IsPlain)
    (f : FunctionId) {args : List Value} (hargs : ∀ v ∈ args, v.IsPlain) :
    Behaves W T (dispatch body f args) Value.IsPlain := by
  intro a ha hs
  have hfunction := hs.functions f
  unfold dispatch
  refine ends_bind.mpr (ends_get.mpr ?_)
  dsimp only
  split
  · rename_i hf
    rw [hf] at hfunction
    refine behaves_fail (Cause.isFault_of_isDynamic rfl ?_) a ha hs
    simpa [Cause.words] using (show W _ from hfunction)
  · rename_i run hf
    rw [hf] at hfunction
    obtain ⟨hok, herror⟩ := hfunction args hargs
    exact behaves_ofExcept hok herror a ha hs
  · exact ((safe_note _).bind fun _ _ => safe_pure trivial) a ha hs
  · rename_i d closure hf
    rw [hf] at hfunction
    let b : Machine := { a with log := .calling d.name args.length :: a.log }
    have hb : b.Sound := ⟨ha.store, ha.scope⟩
    refine ends_bind.mpr (ends_modify.mpr ?_)
    split
    · exact behaves_fail (Cause.isFault_of_isDynamic rfl nofun) b hb hs
    · have hclosure : b.store.Has closure := ha.store.closures f d closure hf
      have hinside := keeps_callBody hkeeps d (a.store.function f).params args
      have hcall := (behaves_defineParams d.params (a.store.function f).params hargs).bind
        fun _ _ => hbody d.body hfunction.2.2.2
      have hends := safe_backTo (fun _ parent h => h.createFrame parent) hb
        (sound_enterCall hb hclosure) rfl rfl hinside hcall (inCall_eq hb hclosure hinside) hs
      refine ends_bind.mpr (hends.imp ?_ fun _ _ he => he)
      rintro completion c ⟨hc, hs, hplain⟩
      cases completion with
      | next => exact ⟨hc, hs, trivial⟩
      | returned value => exact ⟨hc, hs, hplain⟩

theorem behaves_invoke (hW : Vocabulary W T) (fuel : Nat) (f : FunctionId) {args : List Value}
    (hargs : ∀ v ∈ args, v.IsPlain) : Behaves W T (invoke fuel f args) Value.IsPlain := by
  induction fuel generalizing f args with
  | zero =>
    exact behaves_dispatch (fun _ => keeps_throw _) (fun _ _ => safe_throw (.inl rfl)) f hargs
  | succ fuel ih =>
    refine behaves_dispatch (fun ss => keeps_stmts fun s _ => keeps_stmt (keeps_invoke fuel) s) ?_ f
      hargs
    exact fun ss h => behaves_stmts fun s hs =>
      behaves_stmt hW (keeps_invoke fuel) (fun f args => ih f) (h s hs)

/-! ## Programs -/

theorem behaves_defineMethod (hW : Vocabulary W T) {d : Method} (hd : d.Uses W T) :
    Behaves W T (defineMethod d) fun _ => True := by
  have htypes : Behaves W T (ask fun s _ => do
      return (← s.paramTypes d.params, ← s.typeOrAny d.returnType)) fun _ => True := by
    refine safe_ask (fun _ _ _ _ _ => trivial) fun s _ c hs hc => ?_
    have hfaults := (Store.faults_paramTypes hW hs hd.2.1).bind fun types =>
      (Store.faults_typeOrAny hW hs hd.2.2.1).bind fun returns => faults_ok (types, returns)
    exact hfaults c hc
  refine htypes.bind fun (types, returns) _ => Safe.bind (P := fun _ => True) ?_ fun _ _ =>
    safe_pure trivial
  intro a ha hs
  have hmethod : ∀ m c, (Body.method d a.scope) = .method m c → a.store.Has c := by
    rintro _ _ ⟨⟩
    exact ha.scope
  let fn : Function := ⟨d.name, types, some returns, .method d a.scope⟩
  have hextends : a.Extends { a with store := (a.store.defineFunction a.scope fn).2 } :=
    .defineFunction ha hmethod
  exact ⟨hextends.sound, hs.defineFunction a.scope fn hd, trivial⟩

/-- A run of a program gives a value of the language or fails with a fault. -/
theorem behaves_program (hW : Vocabulary W T) (fuel : Nat) {p : Program} (hp : p.Uses W T) :
    Behaves W T (program fuel p) Value.IsPlain := by
  have hcall (f : FunctionId) (args : List Value) (hargs : ∀ v ∈ args, v.IsPlain) :=
    behaves_invoke hW fuel f hargs
  refine (safe_forM fun b hb => ?_).bind fun _ _ => (safe_forM fun d hd => ?_).bind fun _ _ => ?_
  · refine (behaves_locate (behaves_initial hW hcall (hp.1 b hb))).bind fun r hr => ?_
    exact (behaves_define hr).bind fun _ _ => safe_pure trivial
  · exact behaves_defineMethod hW (hp.2 d hd)
  · refine (behaves_function hW.main 0).bind fun f _ => (safe_note _).bind fun _ _ => ?_
    exact hcall f [] nofun

end Run

/-! ## Runs of programs -/

namespace Program

variable {p : Program} {fuel : Nat} {e : Failure}

theorem isFault_of_run (hW : Vocabulary W T) (hp : p.Uses W T)
    (h : result (p.run fuel .initial none) = .error e) : e.IsFault W T := by
  have hstart : (Machine.start .initial none).Sound :=
    Machine.sound_start Store.wellFormed_initial (by simp)
  have htame := (Store.isTame_initial hW).createRoot none .print trivial
  have hends := Run.behaves_program hW fuel hp _ hstart htame
  cases hrun : p.run fuel .initial none with
  | ok v n =>
    rw [hrun] at h
    cases h
  | error e' n =>
    rw [hrun] at h
    cases h
    exact hends.of_error hrun

/-- A run that fails has met a fault of running or a name that is not defined, or it has come to a
type name that no type has; that is one of the type names that the program writes. Or else it has
crashed on a decimal that is too large. -/
theorem family_of_run (hp : p.Uses (fun _ => True) T)
    (h : result (p.run fuel .initial none) = .error e) (hfuel : e ≠ .outOfFuel) :
    e = .crash .decimalOverflow ∨ ∃ d, e = .diagnostic d ∧ (d.cause.family.isDynamic = true ∨
      d.cause.family.isUndefinedName = true ∨
      ∃ name, T name ∧ (∀ t ∈ Ty.builtIn, t.name ≠ name) ∧ d.cause = .unknownType name) := by
  refine ((isFault_of_run (vocabulary_true T) hp h).resolve_left hfuel).imp_right fun hd => ?_
  obtain ⟨d, rfl, hd⟩ := hd.exists
  exact ⟨d, rfl, hd.family⟩

/-- Whether a run on its own fails with this failure. -/
def failsWith (p : Program) (fuel : Nat) (e : Failure) : Bool :=
  match result (p.run fuel .initial none) with
  | .error e' => e' = e
  | .ok _ => false

theorem result_of_failsWith (h : p.failsWith fuel e = true) :
    result (p.run fuel .initial none) = .error e := by
  unfold failsWith at h
  split at h
  · rename_i e' he
    rw [he, of_decide_eq_true h]
  · cases h

/-- What is found out about the program that a text stands for. -/
theorem exists_of_any {text : String} {P : Program → Bool}
    (h : (Program.parse text).toOption.any P = true) :
    ∃ p, Program.parse text = .ok p ∧ P p = true := by
  cases hp : Program.parse text with
  | ok p =>
    rw [hp] at h
    exact ⟨p, rfl, h⟩
  | error d =>
    rw [hp] at h
    cases h

/-- A variable is declared to be of a type that there is not. -/
def misnaming : Program :=
  ⟨[], [⟨.start, "main", [], none, [.declare ⟨.start, "x", some "Foo", none⟩]⟩]⟩

theorem family_of_run_misnaming : ∃ e d, misnaming.Uses (fun _ => True) (· = "Foo") ∧
    result (misnaming.run 1 .initial none) = .error e ∧ e ≠ .outOfFuel ∧ e = .diagnostic d ∧
    (d.cause.family.isDynamic = true ∨ d.cause.family.isUndefinedName = true ∨
      ∃ name, name = "Foo" ∧ (∀ t ∈ Ty.builtIn, t.name ≠ name) ∧ d.cause = .unknownType name) := by
  have huses : misnaming.Uses (fun _ => True) (· = "Foo") := by
    simp [misnaming, Uses, Method.Uses, Stmt.Uses, Binding.Uses]
  have hfails : misnaming.failsWith 1 (.diagnostic ⟨.unknownType "Foo", some .start⟩) = true := by
    decide +kernel
  have hrun := result_of_failsWith hfails
  obtain ⟨d, hd, hfamily⟩ := (family_of_run huses hrun nofun).resolve_left nofun
  exact ⟨_, d, huses, hrun, nofun, hd, hfamily⟩

/-- The text of a program that fails with a static error when it is run. -/
def misnamed : String := "DEF main() DO LET x: Foo; RETURN x; END"

theorem isStatic_of_run_misnamed : ∃ p d, Program.parse misnamed = .ok p ∧
    result (p.run 1 .initial none) = .error (.diagnostic d) ∧ d.cause = .unknownType "Foo" ∧
    d.cause.family.isStatic = true ∧
    ¬ (d.cause.family.isDynamic = true ∨ d.cause.family.isUndefinedName = true) := by
  have hfails : (Program.parse misnamed).toOption.any
      (·.failsWith 1 (.diagnostic ⟨.unknownType "Foo", some ⟨1, 15⟩⟩)) = true := by
    decide +kernel
  obtain ⟨p, hp, hfails⟩ := exists_of_any hfails
  exact ⟨p, _, hp, result_of_failsWith hfails, rfl, rfl, by decide⟩

end Program

end BlockScript
