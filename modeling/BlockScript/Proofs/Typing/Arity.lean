import BlockScript.Proofs.Store.Arity
import BlockScript.Proofs.Typing.Visits

/-!
# Arguments in an analysis

The functions that an analysis makes have no bodies, so those of the store stay fitted. Each call
that it checks resolves to a function with a parameter for each argument.
-/

namespace BlockScript

open Attempt Pass

/-! ## Functions -/

namespace Pass

variable {ρ α : Type} {a b : Pass ρ} {x : Attempt (Pass ρ) α}

def StaysFitted (a b : Pass ρ) : Prop := a.store.Fitted → b.store.Fitted

instance : IsPreorder (Pass ρ) StaysFitted where
  refl _ h := h
  trans _ _ _ hab hbc h := hbc (hab h)

theorem StaysFitted.of_eq (h : b.store.functions = a.store.functions) : StaysFitted a b :=
  fun ha => ha.congr h

theorem fitted_define (name : String) (type : Ty) (value : Option Value) :
    Keeps StaysFitted (define name type value : Attempt (Pass ρ) SlotId) :=
  keeps_modifyGet fun _ => .of_eq rfl

theorem fitted_leaveFrame : Keeps StaysFitted (leaveFrame : Attempt (Pass ρ) Unit) := by
  intro a
  refine ends_bind.mpr (ends_get.mpr ?_)
  cases (a.store.frame a.scope).parent with
  | none => exact id
  | some parent => exact id

theorem fitted_inScope (hx : Keeps StaysFitted x) : Keeps StaysFitted (inScope x) :=
  (keeps_modify fun _ => .of_eq rfl).bind fun _ => hx.ensuring fitted_leaveFrame

end Pass

namespace Check

theorem fitted_setReturns (f : FunctionId) (type : Ty) :
    Keeps StaysFitted (modify fun a => { a with store := a.store.setReturns f type } :
      Check PUnit) :=
  keeps_modify fun _ h => h.setReturns f type

theorem upholds_fitted : Upholds StaysFitted where
  keeps_define name type := fitted_define name type none
  keeps_returned := keeps_returned_of_setReturns fitted_setReturns
  keeps_inScope := fitted_inScope

/-- Where the analysis begins with a method, the method has no body yet. -/
theorem fitted_begun (a : Analysis) (m : Method) (types : List Ty) (returns : Option Ty) :
    StaysFitted a (begun a m types returns) :=
  fun h => (h.defineFunction a.scope ⟨m.name, types, returns, .absent⟩ trivial).congr rfl

theorem fitted_method (m : Method) : Keeps StaysFitted (method m) := by
  refine (inert_ask _).locate.keeps.bind ?_
  rintro ⟨types, returns⟩ a
  let b : Analysis := { begun a m types returns with own := some ⟨a.store.functions.size⟩ }
  have hb : StaysFitted a b := fitted_begun a m types returns
  have hbody := upholds_fitted.keeps_checkBody fitted_setReturns fun _ => keeps_modify fun _ =>
    .of_eq rfl
  exact (hbody m types ⟨a.store.functions.size⟩ a.own b).imp
    (fun _ _ h ha => h (hb ha)) fun _ _ h ha => h (hb ha)

theorem fitted_program (p : Program) : Keeps StaysFitted (program p) := by
  refine (keeps_mapM fun b _ => (upholds_fitted.keeps_binding b).locate).bind fun _ => ?_
  refine (keeps_mapM fun m _ => fitted_method m).bind fun _ => ?_
  exact (keeps_entryPoint (keeps_modify fun _ => .of_eq rfl)).bind fun _ => keeps_pure _

theorem fitted_check (x : Subject) : Keeps StaysFitted x.check := by
  cases x with
  | program p => exact (fitted_program p).bind fun _ => keeps_pure _
  | method m => exact (fitted_method m).bind fun _ => keeps_pure _
  | statement s => exact (upholds_fitted.keeps_stmt s).bind fun _ => keeps_pure _
  | expression e => exact (inert_expr e).keeps.bind fun _ => keeps_pure _

end Check

namespace Analysis

variable {s : Store} {parent : Option FrameId} {a : Analysis}

theorem Reachable.fitted (h : Reachable s parent a) (hs : s.Fitted) : a.store.Fitted := by
  induction h with
  | start => exact hs.createRoot parent .absent trivial
  | checked _ x ih => exact (Check.fitted_check x _).state ih
  | entered _ ih => exact ih.congr rfl
  | exited _ ih => exact (fitted_leaveFrame _).state ih
  | @inBody a _ m types returns ih =>
    have hbegun := Check.fitted_begun a m types returns ih
    exact (Check.upholds_fitted.keeps_defineParams m.params types _).state (hbegun.congr rfl)

end Analysis

/-! ## Calls -/

namespace Check

/-- Arguments, each for the parameter that it comes with. -/
def pairs : List (Ty × Expr) → Check (List TypedExpr)
  | [] => return []
  | (param, e) :: rest => do
    let typed ← expr e
    Attempt.locate e.position (Attempt.ofExcept (param.requireAssignable typed.type))
    return typed :: (← pairs rest)

/-- With as many arguments as parameters no type of a parameter is made up. -/
theorem exprs_eq_pairs {params : List Ty} {es : List Expr} (h : params.length = es.length) :
    exprs params es = pairs (params.zip es) := by
  induction es generalizing params with
  | nil =>
    rw [List.zip_nil_right]
    rfl
  | cons e es ih =>
    cases params with
    | nil => cases h
    | cons param params =>
      rw [exprs, List.zip_cons_cons, pairs, List.headD_cons, List.tail_cons, ih (Nat.succ.inj h)]

end Check

namespace Visit

variable {v w : Visit}

/-- The visit is one of a call with `n` arguments, in which a receiver counts, that resolves to `f`
in the state `b`. -/
inductive Resolves : Visit → FunctionId → (n : Nat) → (b : Analysis) → Prop
  | call {p : Position} {name : String} {es : List Expr} {a : Analysis} {f : FunctionId}
      (hf : a.store.lookupFunction a.scope name es.length = .ok f) :
      Resolves ⟨.expression (.call p name es), a⟩ f es.length a
  | methodCall {p : Position} {receiver : Expr} {name : String} {es : List Expr} {a b : Analysis}
      {typed : TypedExpr} {f : FunctionId} (he : Check.expr receiver a = .ok typed b)
      (hf : b.store.lookupMethod typed.type name es.length = .ok f) :
      Resolves ⟨.expression (.methodCall p receiver name es), a⟩ f (es.length + 1) b

/-- Of the parameters and the arguments that are left there are as many. -/
def Matched (v : Visit) : Prop :=
  ∀ params es, v.item = .arguments params es → params.length = es.length

/-- The tables are in order. If the visit is one of a call or of its arguments, there is a parameter
for each argument, and each argument is checked for its own. -/
structure Served (v : Visit) : Prop where
  indexed : v.state.store.Indexed
  resolved : ∀ f n b, v.Resolves f n b → (b.store.function f).params.length = n
  matched : v.Matched
  checked : ∀ params es, v.item = .arguments params es →
    Check.exprs params es = Check.pairs (params.zip es)

theorem Resolves.arity {f : FunctionId} {n : Nat} {b : Analysis} (h : v.Resolves f n b)
    (hv : v.state.Sound) : (b.store.function f).arity = n := by
  cases h with
  | call hf => exact hv.store.arity_of_lookupFunction hf
  | methodCall he hf =>
    have hb := sound_of_inert (Check.inert_expr _) he hv
    exact hb.store.arity_of_findMethod (Store.lookupMethod_eq_ok.mp hf)

/-- The arguments of a call are visited with as many parameters, and then so is the rest of them. -/
theorem Begins.matched (h : v.Begins w) (hv : v.state.Sound) (hmatched : v.Matched) :
    w.Matched := by
  cases h with
  | call hf =>
    rintro _ _ ⟨⟩
    exact (Resolves.call hf).arity hv
  | methodCall he hf =>
    rintro _ _ ⟨⟩
    have hparams := (Resolves.methodCall (p := .start) he hf).arity hv
    rw [List.length_tail]
    exact Nat.sub_eq_of_eq_add hparams
  | @nextArgument params e es =>
    rintro _ _ ⟨⟩
    rw [List.length_tail, hmatched params (e :: es) rfl]
    rfl
  | _ => nofun

theorem served_of_includes (h : nesting.Includes v w) (hv : v.state.Sound) (hmatched : v.Matched) :
    w.Served := by
  have hw : w.state.Sound ∧ w.Matched := by
    induction h with
    | refl => exact ⟨hv, hmatched⟩
    | tail _ hbegins ih => exact ⟨sound_of_begins hbegins ih.1, hbegins.matched ih.1 ih.2⟩
  exact ⟨hw.1.store.indexed, fun f n b hf => hf.arity hw.1, hw.2,
    fun params es hitem => Check.exprs_eq_pairs (hw.2 params es hitem)⟩

end Visit

end BlockScript
