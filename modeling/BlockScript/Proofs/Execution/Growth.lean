import BlockScript.Execution.Run
import BlockScript.Proofs.Pass.Context
import BlockScript.Proofs.Store.Root
import BlockScript.Proofs.Syntax.Induction

/-!
# Runs only add to the store

Whatever a run does, in success and failure, it evolves the machine: a statement may declare
variables in its own scope, an expression or a call leaves all frames that there were as they are.
-/

namespace BlockScript

theorem Machine.sound_start {s : Store} {parent : Option FrameId} (hs : s.WellFormed)
    (hparent : ∀ p ∈ parent, s.Has p) : (Machine.start s parent).Sound :=
  ⟨hs.createRoot hparent nofun, Store.has_createRoot s parent .print⟩

/-- Whether a statement declares a variable in the scope that it stands in. -/
def Stmt.declares : Stmt → Bool
  | .declare _ => true
  | _ => false

namespace Run

open Attempt Pass

variable {call : Call} {fuel : Nat}

/-! ## Questions -/

theorem inert_literal (value : Literal) : Inert (literal value) := by
  cases value with
  | character text =>
    unfold literal
    dsimp only
    split
    · exact inert_pure _
    · exact inert_throw nofun
  | _ => exact inert_pure _

theorem inert_field (name : String) (value : Value) : Inert (field name value) := by
  unfold field
  split
  · exact inert_ask _
  · exact inert_fail _

theorem inert_read (v : SlotId) : Inert (read v) := inert_get.bind fun _ => inert_pure _

theorem inert_logical (op : Operator) (value : Value) : Inert (logical op value) := by
  cases value with
  | boolean b => exact inert_pure _
  | _ => exact inert_fail _

theorem inert_declaredType (name : Option String) (value : Value) :
    Inert (declaredType name value) :=
  (inert_ask _).bind fun _ => inert_pure _

/-! ## Expressions -/

theorem keeps_literal (value : Literal) : Keeps (Steps false) (literal value) :=
  (inert_literal value).keeps

theorem keeps_field (name : String) (value : Value) : Keeps (Steps false) (field name value) :=
  (inert_field name value).keeps

theorem keeps_read (v : SlotId) : Keeps (Steps false) (read v) := (inert_read v).keeps

theorem keeps_logical (op : Operator) (value : Value) : Keeps (Steps false) (logical op value) :=
  (inert_logical op value).keeps

theorem keeps_exprs {es : List Expr} (h : ∀ e ∈ es, Keeps (Steps false) (expr call e)) :
    Keeps (Steps false) (exprs call es) := by
  induction es with
  | nil => exact keeps_pure _
  | cons e es ih =>
    rw [List.forall_mem_cons] at h
    exact h.1.bind fun _ => (ih h.2).bind fun _ => keeps_pure _

section

variable (hcall : ∀ f args, Keeps (Steps false) (call f args))

include hcall

theorem keeps_expr (e : Expr) : Keeps (Steps false) (expr call e) := by
  induction e with
  | literal p value => exact keeps_literal value
  | group p inner ih => exact ih
  | binary p op left right hl hr =>
    rw [expr]
    split
    · refine hl.bind fun a => (keeps_logical op a).bind fun a => ?_
      refine .ite (keeps_pure _) ?_
      exact hr.bind fun b => (keeps_logical op b).bind fun _ => keeps_pure _
    · exact hl.bind fun _ => hr.bind fun _ => keeps_ofExcept _
  | name p id => exact (keeps_ask _).bind fun v => keeps_read v
  | member p receiver id ih => exact ih.bind fun v => (keeps_field id v).bind fun v => keeps_read v
  | call p id arguments ih =>
    exact (keeps_exprs ih).bind fun args => (keeps_ask _).bind fun f => hcall f args
  | methodCall p receiver id arguments hr ih =>
    refine hr.bind fun receiver => (keeps_exprs ih).bind fun args => ?_
    exact (keeps_ask _).bind fun f => hcall f (receiver :: args)
  | unknown p label => exact keeps_fail _

/-! ## Statements -/

theorem keeps_condition (e : Expr) : Keeps (Steps false) (condition call e) := by
  refine (keeps_expr hcall e).bind fun v => ?_
  cases v with
  | boolean b => exact keeps_pure _
  | _ => exact keeps_fail _

omit hcall in
theorem keeps_declaredType (name : Option String) (value : Value) :
    Keeps (Steps false) (declaredType name value) :=
  (inert_declaredType name value).keeps

theorem keeps_initial (b : Binding) : Keeps (Steps false) (initial call b) := by
  unfold initial
  split
  · rename_i e _
    exact (keeps_expr hcall e).bind fun value =>
      (keeps_declaredType b.type value).bind fun _ => keeps_pure _
  · exact (keeps_declaredType b.type .nil).bind fun _ => keeps_pure _

theorem keeps_declare (b : Binding) : Keeps (Steps true) (declare call b) := by
  refine (keeps_of_false (keeps_initial hcall b) true).bind fun _ => ?_
  exact (keeps_define _ _ _).bind fun _ => keeps_pure _

theorem keeps_target (e : Expr) : Keeps (Steps false) (target call e) := by
  unfold target
  split
  · exact keeps_ask _
  · rename_i p receiver id
    exact (keeps_expr hcall receiver).bind fun v => keeps_field id v
  · exact keeps_fail _

theorem keeps_assign (receiver value : Expr) :
    Keeps (Steps false) (assign call receiver value) := by
  refine (keeps_target hcall receiver).bind fun v => (keeps_expr hcall value).bind fun value => ?_
  exact keeps_modify fun _ h => .assign h v value

end

section

variable {σ : Type} {R : σ → σ → Prop} [IsPreorder σ R]

theorem keeps_forLoop {body : Int → Attempt σ Completion} (h : ∀ i, Keeps R (body i)) (count : Nat)
    (i : Int) : Keeps R (forLoop body count i) := by
  induction count generalizing i with
  | zero => exact keeps_pure _
  | succ count ih =>
    refine (h i).bind fun completion => ?_
    cases completion with
    | next => exact ih (i + 1)
    | returned value => exact keeps_pure _

theorem keeps_whileLoop {test : Attempt σ Bool} {body : Attempt σ Completion} (htest : Keeps R test)
    (hbody : Keeps R body) (fuel : Nat) : Keeps R (whileLoop test body fuel) := by
  induction fuel with
  | zero => exact keeps_throw _
  | succ fuel ih =>
    refine htest.bind fun _ => .ite (hbody.bind fun completion => ?_) (keeps_pure _)
    cases completion with
    | next => exact ih
    | returned value => exact keeps_pure _

end

theorem keeps_stmts {ss : List Stmt} (h : ∀ s ∈ ss, Keeps (Steps true) (stmt call fuel s)) :
    Keeps (Steps true) (stmts call fuel ss) := by
  induction ss with
  | nil => exact keeps_pure _
  | cons s ss ih =>
    rw [List.forall_mem_cons] at h
    refine h.1.bind fun completion => ?_
    cases completion with
    | next => exact ih h.2
    | returned value => exact keeps_pure _

section

variable (hcall : ∀ f args, Keeps (Steps false) (call f args))

include hcall

/-- A statement that is no declaration leaves also its own scope as it is. -/
theorem keeps_stmt_declares (s : Stmt) : Keeps (Steps s.declares) (stmt call fuel s) := by
  have hstmts {ss : List Stmt} (h : ∀ s ∈ ss, Keeps (Steps s.declares) (stmt call fuel s)) :
      Keeps (Steps true) (stmts call fuel ss) :=
    keeps_stmts fun s hs => keeps_declares (h s hs)
  induction s with
  | expression p value => exact ((keeps_expr hcall value).bind fun _ => keeps_pure _).locate
  | declare b => exact ((keeps_declare hcall b).bind fun _ => keeps_pure _).locate
  | assign p receiver value =>
    exact ((keeps_assign hcall receiver value).bind fun _ => keeps_pure _).locate
  | conditional p condition thenBody elseBody hthen helse =>
    refine ((keeps_condition hcall condition).bind fun _ => ?_).locate
    exact .ite (keeps_inScope (hstmts hthen)) (keeps_inScope (hstmts helse))
  | forLoop p name iterable body ih =>
    refine ((keeps_expr hcall iterable).bind fun v => ?_).locate
    cases v with
    | range start stop =>
      refine keeps_forLoop (fun i => keeps_inScope ?_) _ _
      exact (keeps_define _ _ _).bind fun _ => hstmts ih
    | _ => exact keeps_fail _
  | whileLoop p condition body ih =>
    exact (keeps_whileLoop (keeps_condition hcall condition) (keeps_inScope (hstmts ih))
      fuel).locate
  | ret p value => exact ((keeps_expr hcall value).bind fun _ => keeps_pure _).locate
  | unknown p label => exact (keeps_fail _).locate

theorem keeps_stmt (s : Stmt) : Keeps (Steps true) (stmt call fuel s) :=
  keeps_declares (keeps_stmt_declares hcall s)

end

/-! ## Calls -/

theorem keeps_defineParams (ps : List Param) (types : List Ty) (args : List Value) :
    Keeps (Steps true) (defineParams ps types args) := by
  induction ps generalizing types args with
  | nil =>
    unfold defineParams
    exact keeps_pure _
  | cons p ps ih =>
    cases types with
    | nil => exact keeps_pure _
    | cons type types =>
      cases args with
      | nil => exact keeps_pure _
      | cons arg args => exact (keeps_define _ _ _).bind fun _ => ih types args

variable {body : List Stmt → Run Completion}

theorem sound_enterCall {a : Machine} (h : a.Sound) {closure : FrameId}
    (hclosure : a.store.Has closure) : (enterCall closure a).Sound :=
  have henter := h.enterFrame hclosure
  ⟨henter.store, henter.scope⟩

/-- A call goes back to its caller, and counts as running no more. -/
theorem leaveCall_eq {a b : Machine} {closure : FrameId}
    (h : (enterCall closure a).Evolves true b) : leaveCall a.scope b = a.leave b := by
  have hown : b.own - 1 = a.own := by
    rw [h.own, enterCall]
    exact Int.add_sub_cancel a.own 1
  rw [leaveCall, hown, Pass.leave]

theorem inCall_eq {α : Type} {x : Run α} {a : Machine} {closure : FrameId} (ha : a.Sound)
    (hclosure : a.store.Has closure) (hx : Keeps (Steps true) x) :
    inCall closure x a = a.backTo (x (enterCall closure a)) := by
  have hback : ∀ b, Steps true (enterCall closure a) b →
      (modify (leaveCall a.scope) : Run Unit) b = .ok () (a.leave b) := fun b hb =>
    congrArg (EStateM.Result.ok ()) (leaveCall_eq (hb (sound_enterCall ha hclosure)))
  exact ensuring_eq_backTo ((hx _).imp (fun _ b hb => hback b hb) fun _ b hb => hback b hb)

theorem keeps_callBody (hbody : ∀ ss, Keeps (Steps true) (body ss)) (m : Method) (types : List Ty)
    (args : List Value) :
    Keeps (Steps true) (do defineParams m.params types args; body m.body) :=
  (keeps_defineParams m.params types args).bind fun _ => hbody m.body

theorem evolves_method (hbody : ∀ ss, Keeps (Steps true) (body ss)) (m : Method)
    {closure : FrameId} (types : List Ty) (args : List Value) {a : Machine}
    (ha : a.Sound) (hclosure : a.store.Has closure) :
    Ends (method body m closure types args) a (fun _ b => a.Evolves false b) fun _ b =>
      a.Evolves false b := by
  have hinside := keeps_callBody hbody m types args
  have hleave : ∀ b, Steps true (enterCall closure a) b → a.Evolves false (a.leave b) :=
    fun b hb => .leave ha rfl rfl (hb (sound_enterCall ha hclosure))
  refine ends_bind.mpr ((ends_backTo (inCall_eq ha hclosure hinside)).mpr ?_)
  refine (hinside _).imp ?_ fun _ b hb => hleave b hb
  intro completion b hb
  cases completion <;> exact hleave b hb

section

variable {f : FunctionId} {a : Machine}

/-- What a call of a method does. -/
theorem dispatch_method {m : Method} {closure : FrameId}
    (hf : (a.store.function f).body = .method m closure) (args : List Value) :
    dispatch body f args a =
      (if maxCalls ≤ a.depth then Attempt.fail (.stackOverflow maxCalls)
        else method body m closure (a.store.function f).params args : Run Value)
        { a with log := .calling m.name args.length :: a.log } := by
  unfold dispatch
  simp only [get_bind, hf]
  rfl

theorem dispatch_absent (hf : (a.store.function f).body = .absent) (args : List Value) :
    dispatch body f args a =
      (Attempt.fail (.noBody (a.store.function f).name (a.store.function f).arity) : Run Value)
        a := by
  unfold dispatch
  simp only [get_bind, hf]

theorem dispatch_native {run : List Value → Except Breakdown Value}
    (hf : (a.store.function f).body = .native run) (args : List Value) :
    dispatch body f args a = (Attempt.ofExcept (run args) : Run Value) a := by
  unfold dispatch
  simp only [get_bind, hf]

theorem dispatch_print (hf : (a.store.function f).body = .print) (args : List Value) :
    dispatch body f args a =
      .ok .nil { a with log := .printed (Native.argument args 0).text :: a.log } := by
  unfold dispatch
  simp only [get_bind, hf]
  rfl

end

theorem keeps_dispatch (hbody : ∀ ss, Keeps (Steps true) (body ss)) (f : FunctionId)
    (args : List Value) : Keeps (Steps false) (dispatch body f args) := by
  intro a
  unfold dispatch
  refine ends_bind.mpr (ends_get.mpr ?_)
  dsimp only
  split
  · exact keeps_fail _ a
  · exact keeps_ofExcept _ a
  · exact (keeps_note _).bind (fun _ => keeps_pure _) a
  · rename_i m closure hm
    refine ends_bind.mpr (ends_modify.mpr ?_)
    split
    · exact keeps_note _ a
    · refine ends_imp.mpr fun ha => ?_
      have hnote : a.Evolves false { a with log := .calling m.name args.length :: a.log } :=
        .note ha _
      have hclosure := ha.store.closures f m closure hm
      exact (evolves_method hbody m _ args hnote.sound hclosure).imp (fun _ _ h => hnote.trans h)
        fun _ _ h => hnote.trans h

theorem keeps_invoke (fuel : Nat) (f : FunctionId) (args : List Value) :
    Keeps (Steps false) (invoke fuel f args) := by
  induction fuel generalizing f args with
  | zero => exact keeps_dispatch (fun _ => keeps_throw _) f args
  | succ fuel ih => exact keeps_dispatch (fun _ => keeps_stmts fun s _ => keeps_stmt ih s) f args

/-- What a call with this fuel does with the body of a method. -/
def methodBody : (fuel : Nat) → List Stmt → Run Completion
  | 0, _ => throw .outOfFuel
  | fuel + 1, ss => stmts (invoke fuel) fuel ss

theorem invoke_eq (fuel : Nat) : invoke fuel = dispatch (methodBody fuel) := by
  cases fuel <;> rfl

theorem keeps_methodBody (fuel : Nat) (ss : List Stmt) :
    Keeps (Steps true) (methodBody fuel ss) := by
  cases fuel with
  | zero => exact keeps_throw _
  | succ fuel => exact keeps_stmts fun s _ => keeps_stmt (keeps_invoke fuel) s

/-! ## Definitions of methods -/

/-- A function that runs the method `m` in frames inside `closure`. -/
structure Implements (fn : Function) (m : Method) (closure : FrameId) : Prop where
  name : fn.name = m.name
  arity : fn.arity = m.params.length
  body : fn.body = .method m closure

theorem Implements.refines {fn fn' : Function} {m : Method} {closure : FrameId}
    (h : Implements fn m closure) (hfn : fn.Refines fn') : Implements fn' m closure :=
  ⟨hfn.name.trans h.name, (congrArg List.length hfn.params).trans h.arity, hfn.body.trans h.body⟩

/-- What defining methods in order does. -/
structure Defines (a : Machine) (ms : List Method) (b : Machine) : Prop where
  extension : a.Extends b
  slots : b.store.slots = a.store.slots
  size : b.store.functions.size = a.store.functions.size + ms.length
  function : ∀ i m, ms[i]? = some m →
    Implements (b.store.function ⟨a.store.functions.size + i⟩) m a.scope
  context : b.context = a.context.defineAll ms a.store.functions.size

variable {a b c : Machine}

theorem gives_defineMethod (ha : a.Sound) (m : Method) :
    Gives (defineMethod m) a fun _ b => Defines a [m] b := by
  have htypes : Finds (ask fun s _ => do
      return (← s.paramTypes m.params, ← s.typeOrAny m.returnType)) a fun r =>
      r.1.length = m.params.length := by
    exact finds_ask fun r hr => Store.signature_length hr
  refine htypes.bind ?_
  rintro ⟨types, returns⟩ hlength
  dsimp only at hlength
  let fn : Function := ⟨m.name, types, some returns, .method m a.scope⟩
  have hfn : ∀ d c, fn.body = .method d c → a.store.Has c := by
    rintro d c ⟨⟩
    exact ha.scope
  have hcontext := context_defineFunction ha hfn
  rw [show fn.arity = m.params.length from hlength] at hcontext
  have hupdate : Gives (update fun s scope => s.defineFunction scope
      ⟨m.name, types, some returns, .method m scope⟩) a fun _ b =>
      b = { a with store := (a.store.defineFunction a.scope fn).2 } := rfl
  refine hupdate.bind ?_
  rintro _ _ rfl
  refine ⟨.defineFunction ha hfn, rfl, ?_, ?_, hcontext⟩
  · simp [Store.defineFunction, Store.createFunction, Store.bindFunction]
  · intro i d hd
    obtain ⟨rfl, rfl⟩ : i = 0 ∧ d = m := by
      cases i with
      | zero => exact ⟨rfl, (Option.some.inj hd).symm⟩
      | succ i => cases hd
    have hnew := (Store.function_defineFunction a.store a.scope fn
      ⟨a.store.functions.size⟩).trans (if_pos rfl)
    dsimp only
    rw [Nat.add_zero, hnew]
    exact ⟨rfl, hlength, rfl⟩

theorem Defines.cons {m : Method} {ms : List Method} (h : Defines a [m] b) (h' : Defines b ms c) :
    Defines a (m :: ms) c where
  extension := h.extension.trans h'.extension
  slots := h'.slots.trans h.slots
  size := by
    rw [h'.size, h.size, List.length_singleton, List.length_cons]
    omega
  function i d hd := by
    cases i with
    | zero =>
      cases hd
      have hfn := h.function 0 m rfl
      have hsize : a.store.functions.size + 0 < b.store.functions.size := by
        rw [h.size, List.length_singleton]
        omega
      exact hfn.refines (h'.extension.grows.toRefines.function ⟨_⟩ hsize)
    | succ i =>
      have hfn := h'.function i d hd
      rw [h.size, h.extension.scope] at hfn
      rwa [Nat.add_comm i 1, ← Nat.add_assoc]
  context := by
    have hcontext := h'.context
    rw [h.context, h.size] at hcontext
    exact hcontext

theorem gives_defineMethods (ha : a.Sound) (ms : List Method) :
    Gives (ms.forM defineMethod) a fun _ b => Defines a ms b := by
  induction ms generalizing a with
  | nil =>
    exact gives_pure ⟨.refl ha, rfl, rfl, nofun, rfl⟩
  | cons m ms ih =>
    refine (gives_defineMethod ha m).bind fun _ b hb => ?_
    exact (ih hb.extension.sound).imp fun _ c hc => hb.cons hc

/-! ## Programs -/

theorem keeps_defineMethod (m : Method) : Keeps Broadens (defineMethod m) := by
  have htypes : Keeps (Steps false) (ask fun s _ => do
      return (← s.paramTypes m.params, ← s.typeOrAny m.returnType) : Run (List Ty × Ty)) :=
    keeps_ask _
  refine (keeps_broadens htypes).bind fun (types, returns) => ?_
  refine Keeps.bind (keeps_modifyGet fun a ha => ?_) fun _ => keeps_pure _
  refine .defineFunction ha ?_
  rintro d c ⟨⟩
  exact ha.scope

theorem keeps_program (fuel : Nat) (p : Program) : Keeps Broadens (program fuel p) := by
  have hinitial (b : Binding) := (keeps_initial (keeps_invoke fuel) b).locate (p := b.position)
  refine (keeps_forM fun b _ => ?_).bind fun _ => (keeps_forM fun m _ => ?_).bind fun _ => ?_
  · refine (keeps_broadens (hinitial b)).bind fun _ => ?_
    exact keeps_broadens ((keeps_define _ _ _).bind fun _ => keeps_pure _)
  · exact keeps_defineMethod m
  · have hcall (f : FunctionId) := (keeps_note .entryPointInvoked).bind fun _ =>
      keeps_invoke fuel f []
    exact keeps_broadens ((keeps_ask _).bind hcall)

end Run

end BlockScript
