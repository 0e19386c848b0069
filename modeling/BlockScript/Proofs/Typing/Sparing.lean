import BlockScript.Proofs.Typing.CheckingProgram
import BlockScript.Proofs.Store.Root
import BlockScript.Proofs.Store.Upkeep
import BlockScript.Proofs.Syntax.Induction
import BlockScript.Toolchain

/-!
# What the analysis leaves alone

The analysis makes variables and functions of its own, in frames of its own. Of what there was
before it changes one thing at most, the open return type of the method that it is in, and that also
if it fails.
-/

namespace BlockScript

/-- Variables that there were are the same, and so are functions, but for `own`; there are no new
bodies of methods. -/
structure Store.Spares (own : Option FunctionId) (s t : Store) : Prop where
  slots : s.slots.size ≤ t.slots.size
  slot : ∀ v : SlotId, v.index < s.slots.size → t.slot v = s.slot v
  functions : s.functions.size ≤ t.functions.size
  function : ∀ f : FunctionId, f.index < s.functions.size → own ≠ some f →
    t.function f = s.function f
  bodies : ∀ f d c, (t.function f).body = .method d c → (s.function f).body = .method d c
  customTypes : t.customTypes = s.customTypes

namespace Store

variable {s t u : Store} {own : Option FunctionId}

theorem Spares.refl (own : Option FunctionId) (s : Store) : s.Spares own s :=
  ⟨Nat.le_refl _, fun _ _ => rfl, Nat.le_refl _, fun _ _ _ => rfl, fun _ _ _ h => h, rfl⟩

theorem Spares.trans (hst : s.Spares own t) (htu : t.Spares own u) : s.Spares own u where
  slots := Nat.le_trans hst.slots htu.slots
  slot v hv := (htu.slot v (Nat.lt_of_lt_of_le hv hst.slots)).trans (hst.slot v hv)
  functions := Nat.le_trans hst.functions htu.functions
  function f hf hown :=
    (htu.function f (Nat.lt_of_lt_of_le hf hst.functions) hown).trans (hst.function f hf hown)
  bodies f d c h := hst.bodies f d c (htu.bodies f d c h)
  customTypes := htu.customTypes.trans hst.customTypes

theorem Spares.of_none (h : s.Spares none t) (own : Option FunctionId) : s.Spares own t :=
  { h with function := fun f hf _ => h.function f hf nofun }

/-- A function that is new is none of those that there were. -/
theorem Spares.of_new {f : FunctionId} (hf : s.functions.size ≤ f.index)
    (h : s.Spares (some f) t) : s.Spares none t := by
  refine { h with function := fun g hg _ => h.function g hg ?_ }
  rintro ⟨⟩
  exact absurd hg (Nat.not_lt.mpr hf)

theorem spares_createFrame (s : Store) (parent : Option FrameId) :
    s.Spares none (s.createFrame parent).2 :=
  { Spares.refl none s with }

theorem spares_defineSlot (s : Store) (f : FrameId) (slot : Slot) :
    s.Spares none (s.defineSlot f slot).2 where
  slots := (grows_defineSlot s f slot).slots
  slot v hv := (slot_createSlot s slot v).trans (if_neg (Nat.ne_of_lt hv))
  functions := Nat.le_refl _
  function _ _ _ := rfl
  bodies _ _ _ h := h
  customTypes := rfl

theorem spares_setReturns (s : Store) (f : FunctionId) (type : Ty) :
    s.Spares (some f) (s.setReturns f type) where
  slots := Nat.le_refl _
  slot _ _ := rfl
  functions := by simp [setReturns]
  function g _ hg := by
    rw [function_setReturns, if_neg]
    rintro ⟨rfl, -⟩
    exact hg rfl
  bodies g d c h := by
    rw [function_setReturns] at h
    split at h <;> exact h
  customTypes := rfl

theorem spares_defineFunction (s : Store) (f : FrameId) {fn : Function}
    (hfn : ∀ d c, fn.body ≠ .method d c) : s.Spares none (s.defineFunction f fn).2 where
  slots := Nat.le_refl _
  slot _ _ := rfl
  functions := (grows_defineFunction s f fn).functions
  function g hg _ := by
    rw [function_defineFunction, if_neg (Nat.ne_of_lt hg)]
  bodies g d c h := by
    rw [function_defineFunction] at h
    split at h
    · exact absurd h (hfn d c)
    · exact h
  customTypes := rfl

theorem spares_bindFunction (s : Store) (f : FrameId) (id : FunctionId) :
    s.Spares none (s.bindFunction f id) :=
  { Spares.refl none s with }

theorem spares_createRoot (s : Store) (parent : Option FrameId) {printing : Body}
    (hprinting : ∀ d c, printing ≠ .method d c) :
    s.Spares none (s.createRoot parent printing).2 :=
  ((spares_createFrame s parent).trans (spares_defineFunction _ _ hprinting)).trans
    (spares_bindFunction ..)

theorem Tidy.setReturns (h : s.Tidy) (f : FunctionId) (type : Ty) : (s.setReturns f type).Tidy := by
  refine ⟨h.slots, fun g k x d c hx hc => h.closures g k x d c hx ?_⟩
  rw [function_setReturns] at hc
  split at hc <;> exact hc

theorem Tidy.defineFunction (h : s.Tidy) (hs : s.WellFormed) (f : FrameId) {fn : Function}
    (hfn : ∀ d c, fn.body ≠ .method d c) : (s.defineFunction f fn).2.Tidy := by
  have hnew := (function_createFunction s fn ⟨s.functions.size⟩).trans (if_pos rfl)
  refine (h.createFunction hs fn).bindFunction f fun d c hc => ?_
  rw [hnew] at hc
  exact absurd hc (hfn d c)

theorem Tidy.createRoot (h : s.Tidy) (hs : s.WellFormed) {parent : Option FrameId}
    (hparent : ∀ p ∈ parent, s.Has p) {printing : Body} (hprinting : ∀ d c, printing ≠ .method d c)
    (hrange : ∀ d c, (s.function rangeId).body ≠ .method d c) :
    (s.createRoot parent printing).2.Tidy := by
  have hprinted : (s.printed parent printing).Tidy :=
    (h.createFrame parent).defineFunction (hs.createFrame hparent) _ hprinting
  have hsame : (s.printed parent printing).function rangeId = s.function rangeId :=
    (function_defineFunction (s.createFrame parent).2 _ _ rangeId).trans
      (if_neg (Nat.ne_of_lt hs.range))
  refine hprinted.bindFunction _ fun d c hc => ?_
  rw [hsame] at hc
  exact absurd hc (hrange d c)

end Store

namespace Check

open Attempt Pass

variable {α : Type} {a b c : Analysis} {declares : Bool}

/-- The state has evolved, and all that there was is spared but the method that the analysis is
in. -/
structure Minds (declares : Bool) (a b : Analysis) : Prop extends a.Evolves declares b where
  spares : a.store.Spares a.own b.store
  tidy : a.store.Tidy → b.store.Tidy

/-- As `Minds`, after a part that may define functions, while the analysis is in no method. -/
structure Guards (a b : Analysis) : Prop extends a.Extends b where
  spares : a.store.Spares none b.store
  tidy : a.store.Tidy → b.store.Tidy

theorem Minds.refl (h : a.Sound) : Minds declares a a := ⟨.refl h, .refl _ _, id⟩

theorem Minds.trans (hab : Minds declares a b) (hbc : Minds declares b c) : Minds declares a c :=
  ⟨hab.toEvolves.trans hbc.toEvolves, hab.spares.trans (hab.own ▸ hbc.spares),
    fun h => hbc.tidy (hab.tidy h)⟩

theorem Minds.of_false (h : Minds false a b) (declares : Bool) : Minds declares a b :=
  ⟨h.toEvolves.of_false declares, h.spares, h.tidy⟩

theorem Minds.guards (h : Minds declares a b) (hown : a.own = none) : Guards a b :=
  ⟨h.toEvolves.extends, hown ▸ h.spares, h.tidy⟩

theorem Guards.refl (h : a.Sound) : Guards a a := ⟨.refl h, .refl _ _, id⟩

theorem Guards.trans (hab : Guards a b) (hbc : Guards b c) : Guards a c :=
  ⟨hab.toExtends.trans hbc.toExtends, hab.spares.trans hbc.spares, fun h => hbc.tidy (hab.tidy h)⟩

def Careful (declares : Bool) (a b : Analysis) : Prop := a.Sound → Minds declares a b

instance : IsPreorder Analysis (Careful declares) where
  refl _ h := .refl h
  trans _ _ _ hab hbc ha := (hab ha).trans (hbc (hab ha).sound)

def Guarded (a b : Analysis) : Prop := a.Sound → a.own = none → Guards a b

instance : IsPreorder Analysis Guarded where
  refl _ h _ := .refl h
  trans _ _ _ hab hbc ha hown :=
    (hab ha hown).trans (hbc (hab ha hown).sound ((hab ha hown).own.trans hown))

theorem keeps_of_false {x : Check α} (hx : Keeps (Careful false) x) (declares : Bool) :
    Keeps (Careful declares) x :=
  fun a => (hx a).imp (fun _ _ h ha => (h ha).of_false declares) fun _ _ h ha =>
    (h ha).of_false declares

theorem keeps_guarded {x : Check α} (hx : Keeps (Careful declares) x) : Keeps Guarded x :=
  fun a => (hx a).imp (fun _ _ h ha => (h ha).guards) fun _ _ h ha => (h ha).guards

theorem keeps_steps {x : Check α} (hx : Keeps (Careful declares) x) : Keeps (Steps declares) x :=
  fun a => (hx a).imp (fun _ _ h ha => (h ha).toEvolves) fun _ _ h ha => (h ha).toEvolves

/-! ## Expressions -/

theorem inert_callType (f : FunctionId) : Inert (callType f) :=
  inert_get.bind fun _ => inert_pure _

theorem inert_exprs {es : List Expr} (h : ∀ e ∈ es, Inert (expr e)) (params : List Ty) :
    Inert (exprs params es) := by
  induction es generalizing params with
  | nil => exact inert_pure []
  | cons e es ih =>
    rw [List.forall_mem_cons] at h
    refine h.1.bind fun typed => (inert_ofExcept _).locate.bind fun _ => ?_
    exact (ih h.2 params.tail).bind fun _ => inert_pure _

theorem inert_expr (e : Expr) : Inert (expr e) := by
  induction e with
  | literal p value => exact ((inert_ofExcept _).bind fun _ => inert_pure _).locate
  | group p inner ih => exact (ih.bind fun _ => inert_pure _).locate
  | binary p op left right hl hr =>
    refine (hl.bind fun _ => hr.bind fun _ => ?_).locate
    exact (inert_ofExcept _).bind fun _ => inert_pure _
  | name p id => exact ((inert_ask _).bind fun _ => inert_get.bind fun _ => inert_pure _).locate
  | member p receiver id ih =>
    refine (ih.bind fun _ => (inert_ask _).bind fun _ => ?_).locate
    exact inert_get.bind fun _ => inert_pure _
  | call p id arguments ih =>
    refine ((inert_ask _).bind fun _ => inert_get.bind fun _ => ?_).locate
    exact (inert_exprs ih _).bind fun _ => (inert_callType _).bind fun _ => inert_pure _
  | methodCall p receiver id arguments hr ih =>
    refine (hr.bind fun _ => (inert_ask _).bind fun _ => inert_get.bind fun _ => ?_).locate
    exact (inert_exprs ih _).bind fun _ => (inert_callType _).bind fun _ => inert_pure _
  | unknown p label => exact inert_throw nofun

theorem inert_condition (e : Expr) : Inert (condition e) :=
  (inert_expr e).bind fun _ => .ite (inert_pure _) (inert_fail _)

theorem inert_requireBody (opener : Keyword) (body : List Stmt) : Inert (requireBody opener body) :=
  .ite (inert_fail _) (inert_pure _)

/-! ## Statements -/

theorem careful_define (name : String) (type : Ty) :
    Keeps (Careful true) (define name type none) := by
  refine keeps_modifyGet fun a ha => ?_
  let slot : Slot := ⟨name, type, none⟩
  exact ⟨.define ha slot, (Store.spares_defineSlot a.store a.scope slot).of_none _,
    fun h => h.defineSlot ha.store a.scope slot⟩

theorem careful_inScope {x : Check α} (hx : Keeps (Careful true) x) :
    Keeps (Careful false) (inScope x) := by
  intro a
  refine ends_imp.mpr fun ha => ?_
  have hleave (b : Analysis) (hb : Careful true (a.enterFrame a.scope) b) :
      Minds false a (a.leave b) := by
    have hb := hb (ha.enterFrame ha.scope)
    exact ⟨hb.inScope ha, ((Store.spares_createFrame _ _).of_none _).trans hb.spares,
      fun h => hb.tidy (h.createFrame _)⟩
  rw [ends_backTo (inScope_eq ha (keeps_steps hx))]
  exact (hx _).imp (fun _ b hb => hleave b hb) fun _ b hb => hleave b hb

theorem inert_assignment (p : Position) (target value : Expr) : Inert (assignment p target value) :=
  .ite ((inert_expr target).bind fun _ => (inert_expr value).bind fun _ =>
    (inert_ofExcept _).bind fun _ => inert_pure _) (inert_fail _)

/-- What the analysis of a statement does to the state, it does in these parts, which keep `R`. -/
structure Upholds (R : Analysis → Analysis → Prop) : Prop where
  keeps_define (name : String) (type : Ty) : Keeps R (define name type none)
  keeps_returned (p : Position) (value : Expr) : Keeps R (returned p value)
  keeps_inScope {α : Type} {x : Check α} (hx : Keeps R x) : Keeps R (inScope x)

section

variable {R : Analysis → Analysis → Prop} [IsPreorder Analysis R]

theorem keeps_returned_of_setReturns (hreturns : ∀ f type,
      Keeps R (modify fun a => { a with store := a.store.setReturns f type } : Check PUnit))
    (p : Position) (value : Expr) : Keeps R (returned p value) := by
  refine keeps_get.bind fun a => ?_
  split
  · exact keeps_fail _
  · refine (inert_expr value).keeps.bind fun typed => keeps_get.bind fun b => ?_
    split
    · exact (hreturns _ _).bind fun _ => keeps_pure _
    · exact (keeps_ofExcept _).bind fun _ => keeps_pure _

theorem Upholds.keeps_binding (hR : Upholds R) (b : Binding) : Keeps R (binding b) := by
  refine (inert_ask _).keeps.bind fun annotated => ?_
  split
  · refine (inert_expr _).keeps.bind fun typed => ?_
    exact (keeps_ofExcept _).bind fun _ => (hR.keeps_define _ _).bind fun _ => keeps_pure _
  · exact (hR.keeps_define _ _).bind fun _ => keeps_pure _
  · exact keeps_fail _

theorem keeps_stmts {ss : List Stmt} (h : ∀ s ∈ ss, Keeps R (stmt s)) : Keeps R (stmts ss) := by
  induction ss with
  | nil => exact keeps_pure []
  | cons s ss ih =>
    rw [List.forall_mem_cons] at h
    exact h.1.bind fun _ => (ih h.2).bind fun _ => keeps_pure _

theorem Upholds.keeps_stmt (hR : Upholds R) (s : Stmt) : Keeps R (stmt s) := by
  induction s with
  | expression p value => exact ((inert_expr value).keeps.bind fun _ => keeps_pure _).locate
  | declare b => exact ((hR.keeps_binding b).bind fun _ => keeps_pure _).locate
  | assign p target value => exact (inert_assignment p target value).keeps.locate
  | conditional p e thenBody elseBody hthen helse =>
    refine ((inert_condition e).keeps.bind fun _ => ?_).locate
    refine (inert_requireBody .IF thenBody).keeps.bind fun _ => ?_
    refine (hR.keeps_inScope (keeps_stmts hthen)).bind fun _ => ?_
    exact (hR.keeps_inScope (keeps_stmts helse)).bind fun _ => keeps_pure _
  | forLoop p name iterable body ih =>
    refine ((inert_expr iterable).keeps.bind fun _ => (keeps_ofExcept _).bind fun _ => ?_).locate
    refine (inert_requireBody .FOR body).keeps.bind fun _ => ?_
    refine Keeps.bind (hR.keeps_inScope ?_) fun _ => keeps_pure _
    exact (hR.keeps_define _ _).bind fun _ => (keeps_stmts ih).bind fun _ => keeps_pure _
  | whileLoop p e body ih =>
    refine ((inert_condition e).keeps.bind fun _ => ?_).locate
    exact (hR.keeps_inScope (keeps_stmts ih)).bind fun _ => keeps_pure _
  | ret p value => exact (hR.keeps_returned p value).locate
  | unknown p label => exact keeps_throw _

theorem Upholds.keeps_block (hR : Upholds R) (ss : List Stmt) : Keeps R (stmts ss) :=
  keeps_stmts fun s _ => hR.keeps_stmt s

/-- The variable and the body of a loop. -/
theorem Upholds.keeps_round (hR : Upholds R) (name : String) (body : List Stmt) : Keeps R (do
    let slot ← define name .integer none
    return (slot, ← stmts body)) :=
  (hR.keeps_define name .integer).bind fun _ => (hR.keeps_block body).bind fun _ => keeps_pure _

theorem Upholds.keeps_defineParams (hR : Upholds R) (ps : List Param) (types : List Ty) :
    Keeps R (defineParams ps types) := by
  induction ps generalizing types with
  | nil =>
    unfold defineParams
    exact keeps_pure []
  | cons p ps ih =>
    cases types with
    | nil => exact keeps_pure []
    | cons type types =>
      exact (hR.keeps_define _ _).bind fun _ => (ih types).bind fun _ => keeps_pure _

/-- The parameters and the body of a method. -/
theorem Upholds.keeps_body (hR : Upholds R) (m : Method) (types : List Ty) : Keeps R (do
    let slots ← defineParams m.params types
    return (slots, ← stmts m.body)) :=
  (hR.keeps_defineParams m.params types).bind fun _ =>
    (hR.keeps_block m.body).bind fun _ => keeps_pure _

theorem keeps_entryPoint (hnote : Keeps R (note .entryPointResolved : Check Unit)) :
    Keeps R entryPoint := by
  refine keeps_get.bind fun a => ?_
  split
  · exact keeps_fail _
  · exact .ite hnote (keeps_fail _)

end

/-- Of the method that it is in, the analysis may find out the return type. -/
theorem careful_returned (p : Position) (value : Expr) :
    Keeps (Careful false) (returned p value) := by
  intro a
  refine ends_bind.mpr (ends_get.mpr ?_)
  cases hown : a.own with
  | none => exact keeps_fail _ a
  | some f =>
    refine ends_bind.mpr ((inert_expr value a).imp ?_ ?_)
    · rintro typed _ rfl
      refine ends_bind.mpr (ends_get.mpr ?_)
      cases hr : (a.store.function f).returns with
      | none =>
        refine fun ha => ⟨Check.Evolves.setReturns ha hr typed.type, ?_, fun h => h.setReturns f _⟩
        rw [hown]
        exact Store.spares_setReturns a.store f typed.type
      | some type => exact (keeps_ofExcept _).bind (fun _ => keeps_pure _) a
    · rintro _ _ ⟨rfl, -⟩
      exact refl_of (Careful false) a

theorem upholds_careful : Upholds (Careful true) where
  keeps_define := careful_define
  keeps_returned p value := keeps_of_false (careful_returned p value) true
  keeps_inScope hx := keeps_of_false (careful_inScope hx) true

/-! ## Programs -/

/-- As `Minds`, but for the method `f`, which the analysis is not in any more. -/
structure Settling (f : FunctionId) (a b : Analysis) : Prop extends a.Evolves false b where
  spares : a.store.Spares (some f) b.store
  tidy : a.store.Tidy → b.store.Tidy

theorem ends_inMethod {f : FunctionId} {x : Check α} (hx : Keeps (Careful false) x) (ha : a.Sound) :
    Ends (ensuring x (modify fun b => { b with own := a.own })) { a with own := some f }
      (fun _ b => Settling f a b) fun _ b => Settling f a b := by
  have hback (b : Analysis) (hb : Careful false { a with own := some f } b) :
      Settling f a { b with own := a.own } := by
    have hb := hb ⟨ha.store, ha.scope⟩
    exact ⟨⟨⟨hb.sound.store, hb.sound.scope⟩, hb.scope, rfl, hb.grows, hb.functions⟩, hb.spares,
      hb.tidy⟩
  exact ends_ensuring.mpr ((hx _).imp (fun _ b hb => hback b hb) fun _ b hb => hback b hb)

/-- At its end a method that has returned nothing gets a return type. -/
theorem ends_close {f : FunctionId} {r : α} (ha : a.Sound) :
    Ends (do
        if ((← get).store.function f).returns.isNone then
          modify fun b => { b with store := b.store.setReturns f .nil }
        return r : Check α) a (fun _ b => Settling f a b) fun _ b => Settling f a b := by
  refine ends_bind.mpr (ends_get.mpr ?_)
  split
  · rename_i hnone
    have hr := Option.isNone_iff_eq_none.mp hnone
    exact ⟨Check.Evolves.setReturns ha hr .nil, Store.spares_setReturns a.store f .nil,
      fun h => h.setReturns f _⟩
  · exact ⟨.refl ha, .refl _ _, id⟩

/-- The analysis when it begins with a method, for which there is a new function. -/
def begun (a : Analysis) (m : Method) (types : List Ty) (returns : Option Ty) : Analysis :=
  { a with
    store := (a.store.defineFunction a.scope ⟨m.name, types, returns, .absent⟩).2
    log := .checkingMethod m.name types.length :: a.log }

theorem extends_begun (ha : a.Sound) (m : Method) (types : List Ty) (returns : Option Ty) :
    a.Extends (begun a m types returns) := by
  let fn : Function := ⟨m.name, types, returns, .absent⟩
  have hdefine : a.Extends { a with store := (a.store.defineFunction a.scope fn).2 } :=
    .defineFunction ha (by simp [fn])
  exact hdefine.trans (.note hdefine.sound _)

/-- What remains to be done for a method once it has its function `f`. -/
def checkBody (m : Method) (types : List Ty) (f : FunctionId) (outer : Option FunctionId) :
    Check TypedMethod := do
  let (slots, body) ← Attempt.ensuring
    (inScope do
      let slots ← defineParams m.params types
      return (slots, ← stmts m.body))
    (modify fun a => { a with own := outer })
  if ((← get).store.function f).returns.isNone then
    modify fun a => { a with store := a.store.setReturns f .nil }
  return ⟨m.position, m.name, m.params, m.returnType, f, slots, body⟩

theorem Upholds.keeps_checkBody {R : Analysis → Analysis → Prop} [IsPreorder Analysis R]
    (hR : Upholds R) (hreturns : ∀ f type,
      Keeps R (modify fun a => { a with store := a.store.setReturns f type } : Check PUnit))
    (hown : ∀ f, Keeps R (modify fun a => { a with own := f } : Check PUnit)) (m : Method)
    (types : List Ty) (f : FunctionId) (outer : Option FunctionId) :
    Keeps R (checkBody m types f outer) := by
  have hbody := hR.keeps_inScope (hR.keeps_body m types)
  refine (hbody.ensuring (hown outer)).bind fun _ => keeps_get.bind fun a => ?_
  exact .ite ((hreturns f .nil).bind fun _ => keeps_pure _) (keeps_pure _)

/-- The method that is being checked is new, so its return type is none of what there was. -/
theorem guards_begun (ha : a.Sound) (m : Method) (types : List Ty) (returns : Option Ty) :
    Ends (checkBody m types ⟨a.store.functions.size⟩ a.own)
      { begun a m types returns with own := some ⟨a.store.functions.size⟩ }
      (fun _ c => Guards a c) fun _ c => Guards a c := by
  let f : FunctionId := ⟨a.store.functions.size⟩
  let b := begun a m types returns
  have hab : a.Extends b := extends_begun ha m types returns
  have hspares : a.store.Spares none b.store :=
    Store.spares_defineFunction a.store a.scope (by simp)
  have hlater (c : Analysis) (hc : Settling f b c) : Guards a c :=
    ⟨hab.trans hc.extends, .of_new (Nat.le_refl _) ((hspares.of_none _).trans hc.spares),
      fun h => hc.tidy (h.defineFunction ha.store a.scope (by simp))⟩
  change Ends (checkBody m types f b.own) { b with own := some f } _ _
  have hbody := careful_inScope (upholds_careful.keeps_body m types)
  refine ends_bind.mpr ((ends_inMethod hbody hab.sound).imp ?_ ?_)
  · rintro ⟨slots, body⟩ c hc
    have hthen (d : Analysis) (hd : Settling f c d) : Guards a d :=
      hlater d ⟨hc.toEvolves.trans hd.toEvolves, hc.spares.trans hd.spares,
        fun h => hd.tidy (hc.tidy h)⟩
    exact (ends_close hc.sound).imp (fun _ d hd => hthen d hd) fun _ d hd => hthen d hd
  · exact fun _ c hc => hlater c hc

theorem guarded_method (m : Method) : Keeps Guarded (method m) := by
  have htypes : Keeps (Careful false) (Attempt.locate m.position (ask fun s _ => do
      return (← s.paramTypes m.params, ← s.namedType m.returnType)) :
      Check (List Ty × Option Ty)) :=
    (inert_ask _).locate.keeps
  refine (keeps_guarded htypes).bind ?_
  rintro ⟨types, returns⟩ a
  exact ends_imp.mpr fun ha => ends_imp.mpr fun _ => guards_begun ha m types returns

theorem guarded_entryPoint : Keeps Guarded entryPoint :=
  keeps_entryPoint (keeps_modify fun _ hb _ => ⟨.note hb .entryPointResolved, .refl _ _, id⟩)

theorem guarded_program (p : Program) : Keeps Guarded (program p) := by
  have hfield (b : Binding) : Keeps Guarded (field b) :=
    keeps_guarded (upholds_careful.keeps_binding b).locate
  refine (keeps_mapM fun b _ => hfield b).bind fun _ => ?_
  refine (keeps_mapM fun m _ => guarded_method m).bind fun _ => ?_
  exact guarded_entryPoint.bind fun _ => keeps_pure _

end Check

/-- What holds of the end, in success and failure, holds of the last state. -/
theorem Attempt.Ends.state {σ α : Type} {x : Attempt σ α} {a : σ} {P : σ → Prop}
    (h : Ends x a (fun _ b => P b) fun _ b => P b) : P (Attempt.state (x a)) := by
  unfold Ends at h
  cases hrun : x a <;> rw [hrun] at h <;> exact h

/-- Whatever comes of the analysis of a program, all that there was before is spared. -/
theorem Program.guards_check {s : Store} {parent : Option FrameId} (hs : s.WellFormed)
    (hparent : ∀ f ∈ parent, s.Has f) (p : Program) :
    Check.Guards (.start s parent) (Attempt.state (p.check s parent)) := by
  have hsound : (Analysis.start s parent).Sound :=
    ⟨hs.createRoot hparent nofun, Store.has_createRoot s parent .absent⟩
  exact (Check.guarded_program p (.start s parent)).state hsound rfl

end BlockScript
