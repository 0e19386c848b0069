import BlockScript.Proofs.Pass.Safety
import BlockScript.Proofs.Soundness.Values
import BlockScript.Proofs.Syntax.Vocabulary
import BlockScript.Proofs.Typing.Sparing

/-!
# How the analysis fails

The analysis rejects a program for a broken static rule or for a name that is not defined. While no
host has added types, all types that it meets are the built-in ones, and what its messages quote are
names, operators, numbers and names of types.
-/

namespace BlockScript

open Attempt Pass

/-- The cause of a rejection: nothing that it quotes has a line feed. -/
structure Cause.IsRejection (c : Cause) : Prop where
  words : ∀ w ∈ c.words, IsLine w
  family : c.family.isStatic = true ∨ c.family.isUndefinedName = true

/-- All types are built-in ones. -/
structure Store.IsNative (s : Store) : Prop where
  slots : ∀ v, (s.slot v).type ∈ Ty.builtIn
  params : ∀ f, ∀ t ∈ (s.function f).params, t ∈ Ty.builtIn
  returns : ∀ f, ∀ t ∈ (s.function f).returns, t ∈ Ty.builtIn
  catalog : ∀ name t, s.catalog.find? name = some t → t ∈ Ty.builtIn

theorem Cause.isRejection_of_isStatic {c : Cause} (h : c.family.isStatic = true)
    (hwords : ∀ w ∈ c.words, IsLine w) : c.IsRejection :=
  ⟨hwords, .inl h⟩

theorem Cause.isRejection_of_isUndefinedName {c : Cause} (h : c.family.isUndefinedName = true)
    (hwords : ∀ w ∈ c.words, IsLine w) : c.IsRejection :=
  ⟨hwords, .inr h⟩

/-! ## Stores -/

namespace Store

variable {s : Store}

theorem isNative_initial : initial.IsNative := by
  have hall : ∀ fn ∈ initial.functions.toList,
      (∀ t ∈ fn.params, t ∈ Ty.builtIn) ∧ ∀ t ∈ fn.returns, t ∈ Ty.builtIn := by
    rw [functions_initial]
    simp [builtInMethods, rangeFunction, Ty.builtIn]
  have hfunction (f : FunctionId) : (∀ t ∈ (initial.function f).params, t ∈ Ty.builtIn) ∧
      ∀ t ∈ (initial.function f).returns, t ∈ Ty.builtIn := by
    rw [function, Array.getD_eq_getD_getElem?]
    cases hf : initial.functions[f.index]? with
    | none => exact ⟨List.forall_mem_nil _, by rintro _ ⟨⟩⟩
    | some fn => exact hall fn (Array.mem_toList_iff.mpr (Array.mem_of_getElem? hf))
  have hcatalog : ∀ e ∈ initial.catalog.entries, e.2 ∈ Ty.builtIn := by decide +kernel
  refine ⟨fun v => ?_, fun f => (hfunction f).1, fun f => (hfunction f).2, fun name t ht => ?_⟩
  · have hslot : initial.slot v = ⟨"", .any, none⟩ := rfl
    rw [hslot]
    simp [Ty.builtIn]
  · exact hcatalog (name, t) (Table.mem_of_find? ht)

theorem IsNative.createFrame (h : s.IsNative) (parent : Option FrameId) :
    (s.createFrame parent).2.IsNative :=
  ⟨h.slots, h.params, h.returns, h.catalog⟩

theorem IsNative.defineSlot (h : s.IsNative) (f : FrameId) {slot : Slot}
    (hslot : slot.type ∈ Ty.builtIn) : (s.defineSlot f slot).2.IsNative := by
  refine ⟨fun v => ?_, h.params, h.returns, h.catalog⟩
  have hv := slot_createSlot s slot v
  rw [show (s.defineSlot f slot).2.slot v = _ from hv]
  split
  · exact hslot
  · exact h.slots v

theorem IsNative.defineFunction (h : s.IsNative) (f : FrameId) (fn : Function)
    (hparams : ∀ t ∈ fn.params, t ∈ Ty.builtIn) (hreturns : ∀ t ∈ fn.returns, t ∈ Ty.builtIn) :
    (s.defineFunction f fn).2.IsNative := by
  refine ⟨h.slots, fun g => ?_, fun g => ?_, h.catalog⟩
  · rw [function_defineFunction]
    split
    · exact hparams
    · exact h.params g
  · rw [function_defineFunction]
    split
    · exact hreturns
    · exact h.returns g

theorem IsNative.setReturns (h : s.IsNative) (f : FunctionId) {type : Ty}
    (htype : type ∈ Ty.builtIn) : (s.setReturns f type).IsNative := by
  refine ⟨h.slots, fun g => ?_, fun g => ?_, h.catalog⟩
  · rw [function_setReturns]
    split <;> exact h.params g
  · rw [function_setReturns]
    split
    · rintro t ⟨⟩
      exact htype
    · exact h.returns g

theorem IsNative.createRoot (h : s.IsNative) (parent : Option FrameId) (printing : Body) :
    (s.createRoot parent printing).2.IsNative := by
  have hprint := (h.createFrame parent).defineFunction ⟨s.frames.size⟩ (printFunction printing)
    (by simp [printFunction, Ty.builtIn]) (by simp [printFunction, Ty.builtIn])
  exact ⟨hprint.slots, hprint.params, hprint.returns, hprint.catalog⟩

end Store

/-! ## Questions -/

/-- What fails only with rejections, and otherwise is as `P` says. -/
def Rejects {α : Type} (P : α → Prop) (x : Except Cause α) : Prop :=
  (∀ a, x = .ok a → P a) ∧ ∀ c, x = .error c → c.IsRejection

section

variable {α β : Type} {P : α → Prop} {Q : β → Prop} {x : Except Cause α}

theorem rejects_ok {a : α} (h : P a) : Rejects P (.ok a) := by
  refine ⟨?_, nofun⟩
  rintro _ ⟨⟩
  exact h

theorem rejects_error {c : Cause} (h : c.IsRejection) : Rejects P (.error c) := by
  refine ⟨nofun, ?_⟩
  rintro _ ⟨⟩
  exact h

theorem Rejects.bind {k : α → Except Cause β} (hx : Rejects P x) (hk : ∀ a, P a → Rejects Q (k a)) :
    Rejects Q (x >>= k) := by
  cases x with
  | ok a => exact hk a (hx.1 a rfl)
  | error c => exact rejects_error (hx.2 c rfl)

end

theorem Ty.rejects_requireAssignable {t u : Ty} (ht : t ∈ builtIn) (hu : u ∈ builtIn) :
    Rejects (fun _ => True) (t.requireAssignable u) := by
  unfold requireAssignable
  split
  · exact rejects_ok trivial
  · refine rejects_error (Cause.isRejection_of_isStatic rfl ?_)
    simpa [Cause.words] using ⟨isLine_name ht, isLine_name hu⟩

theorem Operator.rejects_resultType {op : Operator} (hop : op ∈ known) {t u : Ty}
    (ht : t ∈ Ty.builtIn) (hu : u ∈ Ty.builtIn) :
    Rejects (· ∈ Ty.builtIn) (op.resultType t u) := by
  have hresult : ∀ r, op.resultType? t u = some r → r ∈ Ty.builtIn := by
    intro r hr
    unfold resultType? at hr
    cases op with
    | unknown => cases hr
    | _ =>
      dsimp only at hr
      split_ifs at hr <;> cases hr <;> first | exact ht | decide
  unfold resultType
  split
  · rename_i r hr
    exact rejects_ok (hresult r hr)
  · refine rejects_error (Cause.isRejection_of_isStatic rfl ?_)
    simpa [Cause.words] using ⟨isLine_spelling_operator hop, isLine_name ht, isLine_name hu⟩

theorem Check.rejects_literalType {value : Literal} (h : value.WellFormed) :
    Rejects (· ∈ Ty.builtIn) (literalType value) := by
  cases value with
  | integer n raw =>
    dsimp only [literalType]
    split
    · exact rejects_ok (by decide)
    · refine rejects_error (Cause.isRejection_of_isStatic rfl ?_)
      simpa [Cause.words, IsLine] using newline_notMem_of_isWhole h.1
  | decimal d raw =>
    dsimp only [literalType]
    split
    · exact rejects_ok (by decide)
    · refine rejects_error (Cause.isRejection_of_isStatic rfl ?_)
      simpa [Cause.words, IsLine] using newline_notMem_of_isFractional h.1
  | _ => exact rejects_ok (by decide)

namespace Store

variable {s : Store}

theorem rejects_namedType (hs : s.IsNative) {name : Option String}
    (hname : ∀ t ∈ name, IsIdentifier t) :
    Rejects (fun r => ∀ t ∈ r, t ∈ Ty.builtIn) (s.namedType name) := by
  cases name with
  | none => exact rejects_ok nofun
  | some name =>
    refine Rejects.bind (P := (· ∈ Ty.builtIn)) ?_ fun t ht => rejects_ok (by simpa using ht)
    unfold lookupType
    split
    · rename_i t ht
      exact rejects_ok (hs.catalog name t ht)
    · refine rejects_error (Cause.isRejection_of_isStatic rfl ?_)
      simpa [Cause.words] using isLine_of_isIdentifier (hname name rfl)

theorem rejects_typeOrAny (hs : s.IsNative) {name : Option String}
    (hname : ∀ t ∈ name, IsIdentifier t) :
    Rejects (· ∈ Ty.builtIn) (s.typeOrAny name) := by
  refine (rejects_namedType hs hname).bind fun r hr => rejects_ok ?_
  cases r with
  | none => decide
  | some t => exact hr t rfl

theorem rejects_paramTypes (hs : s.IsNative) {ps : List Param}
    (hps : ∀ p ∈ ps, p.Consists IsIdentifier) :
    Rejects (fun types => ∀ t ∈ types, t ∈ Ty.builtIn) (s.paramTypes ps) := by
  induction ps with
  | nil => exact rejects_ok nofun
  | cons p ps ih =>
    rw [List.forall_mem_cons] at hps
    exact (rejects_typeOrAny hs hps.1.2).bind fun t ht => (ih hps.2).bind fun types htypes =>
      rejects_ok (List.forall_mem_cons.mpr ⟨ht, htypes⟩)

end Store

/-! ## Expressions -/

namespace Check

/-- On a store without foreign types the analysis gives a result as `P` says or rejects. -/
abbrev Behaves {α : Type} (x : Check α) (P : α → Prop) : Prop :=
  Safe Store.IsNative (Failure.Diagnoses Cause.IsRejection) x P

variable {α : Type} {x : Check α} {P : α → Prop}

theorem behaves_ofExcept {y : Except Cause α} (h : Rejects P y) : Behaves (ofExcept y) P :=
  safe_ofExcept h.1 h.2

theorem behaves_fail {c : Cause} (h : c.IsRejection) : Behaves (fail c) P := safe_fail h

theorem behaves_locate {p : Position} (h : Behaves x P) : Behaves (locate p x) P :=
  h.locate fun _ p he => he.locate p

theorem behaves_ask {question : Store → FrameId → Except Cause α}
    (h : ∀ s f, s.IsNative → Rejects P (question s f)) : Behaves (ask question) P :=
  safe_ask (fun s f r hs => (h s f hs).1 r) fun s f c hs => (h s f hs).2 c

theorem behaves_lookupSlot {id : String} (hid : IsIdentifier id) :
    Behaves (ask fun s f => s.lookupSlot f id) fun _ => True := by
  refine behaves_ask fun s f _ => ?_
  unfold Store.lookupSlot
  split
  · exact rejects_ok trivial
  · refine rejects_error (Cause.isRejection_of_isUndefinedName rfl ?_)
    simpa [Cause.words] using isLine_of_isIdentifier hid

theorem behaves_lookupFunction {name : String} (hname : IsIdentifier name) (arity : Nat) :
    Behaves (ask fun s f => s.lookupFunction f name arity) fun _ => True := by
  refine behaves_ask fun s f _ => ?_
  unfold Store.lookupFunction
  split
  · exact rejects_ok trivial
  · refine rejects_error (Cause.isRejection_of_isUndefinedName rfl ?_)
    simpa [Cause.words] using isLine_of_isIdentifier hname

theorem behaves_lookupField {type : Ty} (ht : type ∈ Ty.builtIn) {name : String}
    (hname : IsIdentifier name) :
    Behaves (ask fun s _ => s.lookupField type name) fun _ => True := by
  refine behaves_ask fun s _ _ => ?_
  unfold Store.lookupField
  split
  · exact rejects_ok trivial
  · refine rejects_error (Cause.isRejection_of_isStatic rfl ?_)
    simpa [Cause.words] using ⟨isLine_name ht, isLine_of_isIdentifier hname⟩

theorem behaves_lookupMethod {type : Ty} (ht : type ∈ Ty.builtIn) {name : String}
    (hname : IsIdentifier name) (arguments : Nat) :
    Behaves (ask fun s _ => s.lookupMethod type name arguments) fun _ => True := by
  refine behaves_ask fun s _ _ => ?_
  unfold Store.lookupMethod
  split
  · exact rejects_ok trivial
  · refine rejects_error (Cause.isRejection_of_isStatic rfl ?_)
    simpa [Cause.words] using ⟨isLine_name ht, isLine_of_isIdentifier hname⟩

theorem behaves_callType (f : FunctionId) : Behaves (callType f) (· ∈ Ty.builtIn) := by
  refine safe_get.bind fun a ha => safe_pure ?_
  cases hr : (a.store.function f).returns with
  | none => decide
  | some t => exact ha.2.returns f t hr

/-- An expression with a built-in type. -/
abbrev Typed (e : TypedExpr) : Prop := e.type ∈ Ty.builtIn

theorem behaves_exprs {es : List Expr} (h : ∀ e ∈ es, Behaves (expr e) Typed) {params : List Ty}
    (hparams : ∀ t ∈ params, t ∈ Ty.builtIn) : Behaves (exprs params es) fun _ => True := by
  induction es generalizing params with
  | nil => exact safe_pure trivial
  | cons e es ih =>
    rw [List.forall_mem_cons] at h
    have hparam : params.headD .any ∈ Ty.builtIn := by
      cases params with
      | nil => decide
      | cons t params => exact hparams t List.mem_cons_self
    refine h.1.bind fun typed ht => ?_
    refine (behaves_locate (behaves_ofExcept (Ty.rejects_requireAssignable hparam ht))).bind ?_
    intro _ _
    exact (ih h.2 fun t ht => hparams t (List.mem_of_mem_tail ht)).bind fun _ _ => safe_pure trivial

theorem behaves_expr {e : Expr} (h : e.WellFormed) : Behaves (expr e) Typed := by
  induction e with
  | literal p value =>
    refine behaves_locate ((behaves_ofExcept (rejects_literalType h)).bind fun t ht => ?_)
    exact safe_pure ht
  | group p inner ih => exact behaves_locate ((ih h).bind fun typed ht => safe_pure ht)
  | binary p op left right hl hr =>
    obtain ⟨hop, hleft, hright⟩ := h
    refine behaves_locate ((hl hleft).bind fun l hlt => (hr hright).bind fun r hrt => ?_)
    exact (behaves_ofExcept (Operator.rejects_resultType hop hlt hrt)).bind fun t ht => safe_pure ht
  | name p id =>
    refine behaves_locate ((behaves_lookupSlot h).bind fun v _ => safe_get.bind fun a ha => ?_)
    exact safe_pure (ha.2.slots v)
  | member p receiver id ih =>
    refine behaves_locate ((ih h.1).bind fun r hr => ?_)
    refine (behaves_lookupField hr h.2).bind fun v _ => ?_
    exact safe_get.bind fun a ha => safe_pure (ha.2.slots v)
  | call p id arguments ih =>
    have harguments := (Expr.allWellFormed_iff arguments).mp h.2
    refine behaves_locate ((behaves_lookupFunction h.1 _).bind fun f _ => ?_)
    refine safe_get.bind fun a ha => ?_
    have hexprs := behaves_exprs (fun e he => ih e he (harguments e he)) (ha.2.params f)
    refine hexprs.bind fun _ _ => ?_
    exact (behaves_callType f).bind fun t ht => safe_pure ht
  | methodCall p receiver id arguments hr ih =>
    have harguments := (Expr.allWellFormed_iff arguments).mp h.2.2
    refine behaves_locate ((hr h.1).bind fun r hrt =>
      (behaves_lookupMethod hrt h.2.1 _).bind fun f _ => ?_)
    refine safe_get.bind fun a ha => ?_
    refine (behaves_exprs (fun e he => ih e he (harguments e he))
      fun t ht => ha.2.params f t (List.mem_of_mem_tail ht)).bind fun _ _ => ?_
    exact (behaves_callType f).bind fun t ht => safe_pure ht
  | unknown => exact h.elim

theorem behaves_condition {e : Expr} (h : e.WellFormed) : Behaves (condition e) Typed := by
  refine (behaves_expr h).bind fun typed ht => .ite (safe_pure ht) (behaves_fail ?_)
  exact Cause.isRejection_of_isStatic rfl (by simpa [Cause.words] using isLine_name ht)

/-! ## Statements -/

theorem behaves_define (name : String) {type : Ty} (h : type ∈ Ty.builtIn) :
    Behaves (define name type none) fun _ => True :=
  safe_define fun _ f hs => hs.defineSlot f h

theorem behaves_binding {b : Binding} (h : b.Consists Expr.WellFormed IsIdentifier) :
    Behaves (binding b) fun _ => True := by
  refine (behaves_ask fun s _ hs => Store.rejects_namedType hs h.2.1).bind fun annotated ha => ?_
  cases hb : b.value with
  | some e =>
    refine (behaves_expr (h.2.2 e hb)).bind fun typed ht => ?_
    have htype : annotated.getD typed.type ∈ Ty.builtIn := by
      cases annotated with
      | none => exact ht
      | some t => exact ha t rfl
    refine (behaves_ofExcept (Ty.rejects_requireAssignable htype ht)).bind fun _ _ => ?_
    exact (behaves_define b.name htype).bind fun _ _ => safe_pure trivial
  | none =>
    cases annotated with
    | some t => exact (behaves_define b.name (ha t rfl)).bind fun _ _ => safe_pure trivial
    | none =>
      refine behaves_fail (Cause.isRejection_of_isStatic rfl ?_)
      simpa [Cause.words] using isLine_of_isIdentifier h.1

theorem behaves_assignment (p : Position) {target value : Expr} (htarget : target.WellFormed)
    (hvalue : value.WellFormed) : Behaves (assignment p target value) fun _ => True := by
  refine .ite ?_ (behaves_fail (Cause.isRejection_of_isStatic rfl nofun))
  refine (behaves_expr htarget).bind fun t ht => (behaves_expr hvalue).bind fun v hv => ?_
  exact (behaves_ofExcept (Ty.rejects_requireAssignable ht hv)).bind fun _ _ => safe_pure trivial

theorem behaves_setReturns (f : FunctionId) {type : Ty} (h : type ∈ Ty.builtIn) :
    Behaves (modify fun a => { a with store := a.store.setReturns f type }) fun _ => True :=
  fun _ ha hs => ⟨⟨ha.store.setReturns f type, ha.scope⟩, hs.setReturns f h, trivial⟩

theorem behaves_returned (p : Position) {value : Expr} (h : value.WellFormed) :
    Behaves (returned p value) fun _ => True := by
  refine safe_get.bind fun a _ => ?_
  split
  · exact behaves_fail (Cause.isRejection_of_isStatic rfl nofun)
  · rename_i f _
    refine (behaves_expr h).bind fun typed ht => safe_get.bind fun b hb => ?_
    split
    · exact (behaves_setReturns f ht).bind fun _ _ => safe_pure trivial
    · rename_i type htype
      have hassignable := Ty.rejects_requireAssignable (hb.2.returns f type htype) ht
      exact (behaves_ofExcept hassignable).bind fun _ _ => safe_pure trivial

theorem behaves_requireBody (opener : Keyword) (body : List Stmt) :
    Behaves (requireBody opener body) fun _ => True :=
  .ite (behaves_fail (Cause.isRejection_of_isStatic rfl nofun)) (safe_pure trivial)

theorem behaves_inScope (hkeeps : Keeps (Careful true) x) (hx : Behaves x P) :
    Behaves (inScope x) P :=
  safe_inScope (fun _ parent h => h.createFrame parent) (keeps_steps hkeeps) hx

theorem behaves_stmts {ss : List Stmt} (h : ∀ s ∈ ss, Behaves (stmt s) fun _ => True) :
    Behaves (stmts ss) fun _ => True := by
  induction ss with
  | nil => exact safe_pure trivial
  | cons s ss ih =>
    rw [List.forall_mem_cons] at h
    exact h.1.bind fun _ _ => (ih h.2).bind fun _ _ => safe_pure trivial

theorem behaves_stmt {s : Stmt} (h : s.Consists Expr.WellFormed IsIdentifier) :
    Behaves (stmt s) fun _ => True := by
  induction s with
  | expression p value => exact behaves_locate ((behaves_expr h).bind fun _ _ => safe_pure trivial)
  | declare b => exact behaves_locate ((behaves_binding h).bind fun _ _ => safe_pure trivial)
  | assign p target value => exact behaves_locate (behaves_assignment p h.1 h.2)
  | conditional p e thenBody elseBody ht he =>
    obtain ⟨hc, h₁, h₂⟩ := h
    rw [Stmt.allConsist_iff] at h₁ h₂
    refine behaves_locate ((behaves_condition hc).bind fun _ _ => ?_)
    refine (behaves_requireBody .IF thenBody).bind fun _ _ => ?_
    have hthen := behaves_stmts fun s hs => ht s hs (h₁ s hs)
    have helse := behaves_stmts fun s hs => he s hs (h₂ s hs)
    exact (behaves_inScope (upholds_careful.keeps_block _) hthen).bind fun _ _ =>
      (behaves_inScope (upholds_careful.keeps_block _) helse).bind fun _ _ => safe_pure trivial
  | forLoop p name iterable body ih =>
    obtain ⟨-, hi, hb⟩ := h
    rw [Stmt.allConsist_iff] at hb
    refine behaves_locate ((behaves_expr hi).bind fun typed ht => ?_)
    have hassignable := Ty.rejects_requireAssignable (t := .iterable) (by decide) ht
    refine (behaves_ofExcept hassignable).bind fun _ _ => ?_
    refine (behaves_requireBody .FOR body).bind fun _ _ => ?_
    have hround := upholds_careful.keeps_round name body
    refine Safe.bind (P := fun _ => True) (behaves_inScope hround ?_)
      fun _ _ => safe_pure trivial
    refine (behaves_define name (by decide)).bind fun _ _ => ?_
    exact (behaves_stmts fun s hs => ih s hs (hb s hs)).bind fun _ _ => safe_pure trivial
  | whileLoop p e body ih =>
    obtain ⟨hc, hb⟩ := h
    rw [Stmt.allConsist_iff] at hb
    refine behaves_locate ((behaves_condition hc).bind fun _ _ => ?_)
    have hbody := behaves_stmts fun s hs => ih s hs (hb s hs)
    have hblock := upholds_careful.keeps_block body
    exact (behaves_inScope hblock hbody).bind fun _ _ => safe_pure trivial
  | ret p value => exact behaves_locate (behaves_returned p h)
  | unknown => exact h.elim

/-! ## Programs -/

theorem behaves_defineParams (ps : List Param) {types : List Ty}
    (h : ∀ t ∈ types, t ∈ Ty.builtIn) : Behaves (defineParams ps types) fun _ => True := by
  induction ps generalizing types with
  | nil =>
    unfold defineParams
    exact safe_pure trivial
  | cons p ps ih =>
    cases types with
    | nil => exact safe_pure trivial
    | cons type types =>
      rw [List.forall_mem_cons] at h
      exact (behaves_define p.name h.1).bind fun _ _ => (ih h.2).bind fun _ _ => safe_pure trivial

theorem behaves_defineFunction (name : String) {types : List Ty} {returns : Option Ty}
    (htypes : ∀ t ∈ types, t ∈ Ty.builtIn) (hreturns : ∀ t ∈ returns, t ∈ Ty.builtIn) :
    Behaves (update fun s scope => s.defineFunction scope ⟨name, types, returns, .absent⟩)
      fun _ => True := by
  intro a ha hs
  let fn : Function := ⟨name, types, returns, .absent⟩
  have hextends : a.Extends { a with store := (a.store.defineFunction a.scope fn).2 } :=
    .defineFunction ha nofun
  exact ⟨hextends.sound, hs.defineFunction a.scope fn htypes hreturns, trivial⟩

theorem behaves_method {m : Method} (h : m.Consists Expr.WellFormed IsIdentifier) :
    Behaves (method m) fun _ => True := by
  obtain ⟨-, hparams, hreturn, hbody⟩ := h
  rw [Stmt.allConsist_iff] at hbody
  have hsignature : Behaves (locate m.position (ask fun s _ => do
      return (← s.paramTypes m.params, ← s.namedType m.returnType)))
      fun r => (∀ t ∈ r.1, t ∈ Ty.builtIn) ∧ ∀ t ∈ r.2, t ∈ Ty.builtIn :=
    behaves_locate <| behaves_ask fun s _ hs =>
      (Store.rejects_paramTypes hs hparams).bind fun _ htypes =>
        (Store.rejects_namedType hs hreturn).bind fun _ hreturns => rejects_ok ⟨htypes, hreturns⟩
  refine hsignature.bind fun (types, returns) ⟨htypes, hreturns⟩ => ?_
  refine (behaves_defineFunction m.name htypes hreturns).bind fun f _ =>
    (safe_note _).bind fun _ _ => ?_
  refine safe_get.bind fun a _ => (safe_own (some f)).bind fun _ _ => ?_
  have hinside : Behaves (inScope do
      let slots ← defineParams m.params types
      return (slots, ← stmts m.body)) fun _ => True := by
    refine behaves_inScope (upholds_careful.keeps_body m types) ?_
    refine (behaves_defineParams m.params htypes).bind fun _ _ => ?_
    exact (behaves_stmts fun s hs => behaves_stmt (hbody s hs)).bind fun _ _ => safe_pure trivial
  refine (hinside.ensuring_own a.own).bind fun (slots, body) _ => safe_get.bind fun b _ => ?_
  split
  · exact (behaves_setReturns f (by decide)).bind fun _ _ => safe_pure trivial
  · exact safe_pure trivial

theorem behaves_entryPoint : Behaves entryPoint fun _ => True := by
  refine safe_get.bind fun a ha => ?_
  split
  · exact behaves_fail (Cause.isRejection_of_isStatic rfl nofun)
  · rename_i f _
    refine .ite (safe_note _) (behaves_fail (Cause.isRejection_of_isStatic rfl ?_))
    intro w hw
    obtain ⟨t, ht, rfl⟩ : ∃ t ∈ (a.store.function f).returns, t.name = w := by
      simpa [Cause.words] using hw
    exact isLine_name (ha.2.returns f t ht)

theorem behaves_program {p : Program} (hp : p.WellFormed) : Behaves (program p) fun _ => True := by
  refine (safe_mapM (Q := fun _ => True) fun b hb => ?_).bind fun _ _ => ?_
  · exact behaves_locate (behaves_binding (hp.1 b hb))
  · have hmethods := safe_mapM (Q := fun _ => True) fun m hm => behaves_method (hp.2 m hm)
    refine hmethods.bind fun _ _ => ?_
    exact behaves_entryPoint.bind fun _ _ => safe_pure trivial

end Check

/-- A program that is rejected is rejected for a broken rule or an undefined name. -/
theorem Program.isRejection_of_check {p : Program} {e : Failure} (hp : p.WellFormed)
    (h : result (p.check .initial none) = .error e) : e.Diagnoses Cause.IsRejection := by
  have hstart : (Analysis.start .initial none).Sound :=
    ⟨Store.wellFormed_initial.createRoot (by simp) nofun, Store.has_createRoot ..⟩
  have hends := Check.behaves_program hp _ hstart (Store.isNative_initial.createRoot none .absent)
  cases hcheck : p.check .initial none with
  | ok typed a =>
    rw [hcheck] at h
    cases h
  | error e' a =>
    rw [hcheck] at h
    cases h
    exact hends.of_error hcheck

end BlockScript
