import BlockScript.Proofs.Syntax.Induction
import BlockScript.Proofs.Typing.Judgement

/-!
# The analysis is right about expressions and statements

What the analysis gives for an expression is the expression itself with findings that are right,
and the analysis is then in the state in which it was. A statement may declare a variable besides.
-/

namespace BlockScript

theorem TypedExpr.length_eraseAll (es : List TypedExpr) : (eraseAll es).length = es.length := by
  induction es with
  | nil => rfl
  | cons e es ih => simp [eraseAll, ih]

namespace Check

open Attempt Pass

variable {a b c : Analysis} {f : FunctionId}

/-! ## Expressions -/

/-- `typed` is `e` with findings that are right in all stores that keep what `a` knows. -/
structure Explains (a : Analysis) (e : Expr) (typed : TypedExpr) : Prop where
  erase : typed.erase = e
  checked : ∀ S, a.store.Refines S → typed.Checked S a.context

/-- As `Explains`, for arguments of a function with parameters of the types `params`. -/
structure ExplainsAll (a : Analysis) (params : List Ty) (es : List Expr) (typed : List TypedExpr) :
    Prop where
  erase : TypedExpr.eraseAll typed = es
  checked : ∀ S, a.store.Refines S → TypedExpr.AllChecked S a.context params typed

theorem requireAssignable_eq_ok {target source : Ty} {u : Unit}
    (h : target.requireAssignable source = .ok u) : target.accepts source = true := by
  unfold Ty.requireAssignable at h
  split at h
  · assumption
  · cases h

theorem resultType_eq_ok {op : Operator} {left right t : Ty}
    (h : op.resultType left right = .ok t) : op.resultType? left right = some t := by
  unfold Operator.resultType at h
  split at h
  · rename_i type htype
    cases h
    exact htype
  · cases h

theorem finds_callType {k : String × Nat} {f : FunctionId} (hf : a.store.Keyed k f) :
    Finds (callType f) a fun t => ∀ S, a.store.Refines S → S.Returns f t := by
  refine finds_get.bind fun b hb => ?_
  subst hb
  refine finds_pure fun S hS => ?_
  have hfn := hS.function f hf.1
  cases hr : (a.store.function f).returns with
  | none => exact .inl rfl
  | some t =>
    rcases hfn.returns with hnone | hsame
    · rw [hr] at hnone
      cases hnone
    · right
      rw [hsame, hr]
      rfl

theorem finds_exprs {es : List Expr} (h : ∀ e ∈ es, Finds (expr e) a (Explains a e))
    (params : List Ty) : Finds (exprs params es) a (ExplainsAll a params es) := by
  induction es generalizing params with
  | nil => exact finds_pure ⟨rfl, fun _ _ => trivial⟩
  | cons e es ih =>
    rw [List.forall_mem_cons] at h
    refine h.1.bind fun typed he => ?_
    have hfits : Finds _ a fun _ => (params.headD .any).accepts typed.type = true :=
      finds_ofExcept fun _ hok => requireAssignable_eq_ok hok
    refine hfits.locate.bind fun _ haccepts => (ih h.2 params.tail).bind fun typeds hes => ?_
    refine finds_pure ⟨by rw [TypedExpr.eraseAll, he.erase, hes.erase], fun S hS => ?_⟩
    exact ⟨he.checked S hS, haccepts, hes.checked S hS⟩

theorem finds_expr (h : a.Sound) (e : Expr) : Finds (expr e) a (Explains a e) := by
  induction e with
  | literal p value =>
    have htype : Finds _ a fun t => literalType value = .ok t := finds_ofExcept fun t ht => ht
    exact Finds.locate (htype.bind fun t ht => finds_pure ⟨rfl, fun _ _ => ht⟩)
  | group p inner ih =>
    refine Finds.locate (ih.bind fun inner hinner => finds_pure ?_)
    exact ⟨by rw [TypedExpr.erase, hinner.erase], fun S hS => ⟨hinner.checked S hS, rfl⟩⟩
  | binary p op left right hl hr =>
    refine Finds.locate (hl.bind fun left hleft => hr.bind fun right hright => ?_)
    have htype : Finds _ a fun t => op.resultType? left.type right.type = some t :=
      finds_ofExcept fun t ht => resultType_eq_ok ht
    refine htype.bind fun t ht => finds_pure ?_
    refine ⟨by rw [TypedExpr.erase, hleft.erase, hright.erase], fun S hS => ?_⟩
    exact ⟨hleft.checked S hS, hright.checked S hS, ht⟩
  | name p id =>
    refine Finds.locate ((finds_slot id).bind fun v hv => finds_pure ⟨rfl, fun S hS => ⟨hv, ?_⟩⟩)
    exact (hS.slot v (h.store.findSlot? hv)).symm
  | member p receiver id ih =>
    refine Finds.locate (ih.bind fun receiver hreceiver => ?_)
    refine (finds_field receiver.type id).bind fun v hv => finds_pure ?_
    refine ⟨by rw [TypedExpr.erase, hreceiver.erase], fun S hS => ?_⟩
    refine ⟨hreceiver.checked S hS, ?_, (hS.slot v (h.store.fields _ _ v hv)).symm⟩
    rw [Store.membersOf, hS.members]
    exact hv
  | call p id arguments ih =>
    refine Finds.locate ((finds_function id arguments.length).bind fun f hf => ?_)
    have hkeyed := h.store.findFunction? hf
    refine (finds_exprs ih (a.store.function f).params).bind fun typed htyped => ?_
    refine (finds_callType hkeyed).bind fun t ht => finds_pure ?_
    have hlength : typed.length = arguments.length := by
      rw [← TypedExpr.length_eraseAll, htyped.erase]
    refine ⟨by rw [TypedExpr.erase, htyped.erase], fun S hS => ⟨?_, ?_, ?_, ht S hS⟩⟩
    · rw [hlength]
      exact hf
    · rw [hlength]
      exact (congrArg Prod.snd (hS.keyed hkeyed).2).symm
    · rw [(hS.function f hkeyed.1).params]
      exact htyped.checked S hS
  | methodCall p receiver id arguments hr ih =>
    refine Finds.locate (hr.bind fun receiver hreceiver => ?_)
    refine (finds_method receiver.type id arguments.length).bind fun f hf => ?_
    have hkeyed := h.store.methods _ _ f hf
    refine (finds_exprs ih (a.store.function f).params.tail).bind fun typed htyped => ?_
    refine (finds_callType hkeyed).bind fun t ht => finds_pure ?_
    refine ⟨by rw [TypedExpr.erase, hreceiver.erase, htyped.erase], fun S hS => ?_⟩
    have hlength : typed.length = arguments.length := by
      rw [← TypedExpr.length_eraseAll, htyped.erase]
    refine ⟨hreceiver.checked S hS, ?_, ?_, ?_, ht S hS⟩
    · rw [hlength, Store.findMethod?, Store.membersOf, hS.members]
      exact hf
    · rw [hlength]
      exact (congrArg Prod.snd (hS.keyed hkeyed).2).symm
    · rw [(hS.function f hkeyed.1).params]
      exact htyped.checked S hS
  | unknown p label => exact gives_throw _

/-! ## Declarations -/

theorem slots_size_defineSlot (s : Store) (g : FrameId) (slot : Slot) :
    (s.defineSlot g slot).2.slots.size = s.slots.size + 1 := by
  simp [Store.defineSlot, Store.createSlot]

/-- What a declaration does: one new variable, whose type takes the initial value. -/
structure Declares (a : Analysis) (b : Binding) (typed : TypedBinding) (c : Analysis) : Prop where
  erase : typed.erase = b
  slot : typed.slot = ⟨a.store.slots.size⟩
  state : ∃ type, c = { a with store := (a.store.defineSlot a.scope ⟨b.name, type, none⟩).2 }
  checked : ∀ S, c.store.Refines S → typed.Checked S a.context

theorem Declares.evolves {d : Binding} {typed : TypedBinding} (h : Declares a d typed b)
    (ha : a.Sound) : a.Evolves true b := by
  obtain ⟨type, rfl⟩ := h.state
  exact .define ha _

theorem Declares.name {d : Binding} {typed : TypedBinding} (h : Declares a d typed b) :
    typed.name = d.name :=
  congrArg Binding.name h.erase

theorem Declares.context {d : Binding} {typed : TypedBinding} (h : Declares a d typed b)
    (ha : a.Sound) : b.context = a.context.declare typed.name typed.slot := by
  obtain ⟨type, rfl⟩ := h.state
  rw [h.name, h.slot]
  exact context_define ha _

theorem Declares.slots_size {d : Binding} {typed : TypedBinding} (h : Declares a d typed b) :
    b.store.slots.size = a.store.slots.size + 1 := by
  obtain ⟨type, rfl⟩ := h.state
  exact slots_size_defineSlot ..

/-- The type of a new variable stays. -/
theorem type_defineSlot {s S : Store} {g : FrameId} {slot : Slot}
    (hS : (s.defineSlot g slot).2.Refines S) : (S.slot ⟨s.slots.size⟩).type = slot.type := by
  have hsize : s.slots.size < (s.defineSlot g slot).2.slots.size := by
    rw [slots_size_defineSlot]
    exact Nat.lt_succ_self _
  rw [hS.slot ⟨s.slots.size⟩ hsize]
  have hnew := Store.slot_createSlot s slot ⟨s.slots.size⟩
  rw [if_pos rfl] at hnew
  exact congrArg Slot.type hnew

theorem gives_binding (h : a.Sound) (d : Binding) : Gives (binding d) a (Declares a d) := by
  have hannotated : Finds (ask fun s _ => s.namedType d.type) a fun _ => True :=
    finds_ask fun _ _ => trivial
  refine hannotated.bind fun annotated _ => ?_
  split
  · rename_i annotated _ _ value hvalue
    refine (finds_expr h value).bind fun typed htyped => ?_
    have hfits : Finds (ofExcept ((annotated.getD typed.type).requireAssignable typed.type)) a
        fun _ => (annotated.getD typed.type).accepts typed.type = true :=
      finds_ofExcept fun _ hok => requireAssignable_eq_ok hok
    refine hfits.bind fun _ haccepts => ?_
    refine ⟨?_, rfl, ⟨_, rfl⟩, fun S hS => ?_⟩
    · rw [TypedBinding.erase, Option.map_some, htyped.erase, ← hvalue]
    · rintro e ⟨⟩
      refine ⟨htyped.checked S ((Store.grows_defineSlot ..).toRefines.trans hS), ?_⟩
      rw [type_defineSlot hS]
      exact haccepts
  · rename_i type hvalue
    refine ⟨?_, rfl, ⟨_, rfl⟩, fun S hS => nofun⟩
    rw [TypedBinding.erase, Option.map_none, ← hvalue]
  · exact gives_fail _

end Check

end BlockScript
