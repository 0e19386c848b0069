import BlockScript.Execution.Run
import BlockScript.Proofs.Pass.Agreement
import BlockScript.Proofs.Store.Normal

/-!
# The run of a tree and of its normal form

They agree, where the second runs on a machine on which all methods are in their normal form.
-/

namespace BlockScript

/-- The state of a pass with all methods in their normal form. -/
def Pass.normal {ρ : Type} (a : Pass ρ) : Pass ρ := { a with store := a.store.normal }

namespace Run

open Attempt Pass

variable {α β : Type} {call call' : Call} {fuel : Nat}

/-- The second attempt does on a normal machine what the first does on the machine. -/
def Agrees (x y : Run α) : Prop := Agree (fun m m' => m' = m.normal) Eq x y

/-! ## Steps -/

theorem agrees_ask {question question' : Store → FrameId → Except Cause α}
    (h : ∀ s f, question' s.normal f = question s f) : Agrees (ask question) (ask question') := by
  refine agree_get.bind ?_
  rintro m _ rfl
  have hm : question' m.normal.store m.normal.scope = question m.store m.scope := h m.store m.scope
  rw [hm]
  exact agree_ofExcept _

theorem agrees_note (event : Event) : Agrees (note event) (note event) :=
  agree_modify (by rintro m _ rfl; rfl)

theorem agrees_define (name : String) (type : Ty) (value : Option Value) :
    Agrees (define name type value) (define name type value) :=
  agree_modifyGet (by rintro m _ rfl; exact ⟨rfl, rfl⟩)

theorem agrees_inScope {x y : Run α} (h : Agrees x y) : Agrees (inScope x) (inScope y) :=
  agree_inScope (by rintro m _ rfl; rfl) (by rintro m _ rfl; rfl) (by rintro m _ f rfl; rfl) h

theorem agrees_read (v : SlotId) : Agrees (read v) (read v) := by
  refine agree_get.bind ?_
  rintro m _ rfl
  exact agree_pure rfl

/-! ## Expressions -/

theorem agrees_literal (value : Literal) : Agrees (literal value) (literal value) := by
  cases value with
  | character text =>
    unfold literal
    dsimp only
    split
    · exact agree_pure rfl
    · exact agree_throw _
  | _ => exact agree_pure rfl

theorem agrees_field (name : String) (value : Value) :
    Agrees (field name value) (field name value) := by
  unfold field
  split
  · exact agrees_ask fun _ _ => rfl
  · exact agree_fail _

theorem agrees_lookupSlot (id : String) :
    Agrees (ask fun s f => s.lookupSlot f id) (ask fun s f => s.lookupSlot f id) :=
  agrees_ask fun s f => s.lookupSlot_normal f id

theorem agrees_lookupMethod (receiver : Value) (name : String) (arguments : Nat) :
    Agrees (lookupMethod receiver name arguments) (lookupMethod receiver name arguments) := by
  unfold lookupMethod
  exact agrees_ask fun _ _ => rfl

theorem agrees_declaredType (name : Option String) (value : Value) :
    Agrees (declaredType name value) (declaredType name value) := by
  have hname : Agrees (ask fun s _ => s.namedType name) (ask fun s _ => s.namedType name) :=
    agrees_ask fun _ _ => rfl
  exact hname.bind_eq fun _ => agree_pure rfl

theorem agrees_logical (op : Operator) (value : Value) :
    Agrees (logical op value) (logical op value) := by
  cases value with
  | boolean b => exact agree_pure rfl
  | _ => exact agree_fail _

/-- A group does nothing. -/
theorem expr_groupIf (needed : Bool) (e : Expr) : expr call (e.groupIf needed) = expr call e := by
  cases needed <;> rfl

theorem agrees_exprs {es : List Expr} (h : ∀ e ∈ es, Agrees (expr call e) (expr call' e.normal)) :
    Agrees (exprs call es) (exprs call' (es.map Expr.normal)) := by
  induction es with
  | nil => exact agree_pure rfl
  | cons e es ih =>
    rw [List.forall_mem_cons] at h
    exact h.1.bind_eq fun _ => (ih h.2).bind_eq fun _ => agree_pure rfl

section

variable (hcall : ∀ f args, Agrees (call f args) (call' f args))
include hcall

theorem agrees_expr (e : Expr) : Agrees (expr call e) (expr call' e.normal) := by
  induction e with
  | literal p value => exact agrees_literal value
  | group p inner ih => exact ih
  | binary p op left right hl hr =>
    rw [Expr.normal_binary]
    simp only [expr, expr_groupIf]
    split
    · refine hl.bind_eq fun a => (agrees_logical op a).bind_eq fun a => ?_
      refine .ite (agree_pure rfl) ?_
      exact hr.bind_eq fun b => (agrees_logical op b).bind_eq fun _ => agree_pure rfl
    · exact hl.bind_eq fun _ => hr.bind_eq fun _ => agree_ofExcept _
  | name p id => exact (agrees_lookupSlot id).bind_eq fun v => agrees_read v
  | member p receiver id ih =>
    rw [Expr.normal_member]
    simp only [expr, expr_groupIf]
    exact ih.bind_eq fun v => (agrees_field id v).bind_eq fun v => agrees_read v
  | call p id arguments ih =>
    rw [Expr.normal_call]
    refine (agrees_exprs ih).bind_eq fun args => ?_
    exact (agrees_ask fun s f => s.lookupFunction_normal f id args.length).bind_eq fun f =>
      hcall f args
  | methodCall p receiver id arguments hr ih =>
    rw [Expr.normal_methodCall]
    simp only [expr, expr_groupIf]
    refine hr.bind_eq fun receiver => (agrees_exprs ih).bind_eq fun args => ?_
    exact (agrees_lookupMethod receiver id args.length).bind_eq fun f => hcall f (receiver :: args)
  | unknown p label => exact agree_fail _

/-! ## Statements -/

theorem agrees_condition (e : Expr) : Agrees (condition call e) (condition call' e.normal) := by
  refine (agrees_expr hcall e).bind_eq fun v => ?_
  cases v with
  | boolean b => exact agree_pure rfl
  | _ => exact agree_fail _

theorem agrees_initial (b : Binding) : Agrees (initial call b) (initial call' b.normal) := by
  obtain ⟨p, name, type, value⟩ := b
  cases value with
  | none => exact (agrees_declaredType type .nil).bind_eq fun _ => agree_pure rfl
  | some e =>
    exact (agrees_expr hcall e).bind_eq fun v =>
      (agrees_declaredType type v).bind_eq fun _ => agree_pure rfl

theorem agrees_declare (b : Binding) : Agrees (declare call b) (declare call' b.normal) :=
  (agrees_initial hcall b).bind_eq fun _ => (agrees_define _ _ _).bind_eq fun _ => agree_pure rfl

theorem agrees_target (e : Expr) : Agrees (target call e) (target call' e.normal) := by
  cases e with
  | name p id => exact agrees_lookupSlot id
  | member p receiver id =>
    rw [Expr.normal_member]
    simp only [target, expr_groupIf]
    exact (agrees_expr hcall receiver).bind_eq fun v => agrees_field id v
  | _ => exact agree_fail _

theorem agrees_assign (receiver value : Expr) :
    Agrees (assign call receiver value) (assign call' receiver.normal value.normal) := by
  refine (agrees_target hcall receiver).bind_eq fun v => ?_
  refine (agrees_expr hcall value).bind_eq fun _ => ?_
  exact agree_modify (by rintro m _ rfl; rfl)

end

theorem agrees_forLoop {body body' : Int → Run Completion} (h : ∀ i, Agrees (body i) (body' i))
    (count : Nat) (i : Int) : Agrees (forLoop body count i) (forLoop body' count i) := by
  induction count generalizing i with
  | zero => exact agree_pure rfl
  | succ count ih =>
    refine (h i).bind_eq fun completion => ?_
    cases completion with
    | next => exact ih (i + 1)
    | returned value => exact agree_pure rfl

theorem agrees_whileLoop {test test' : Run Bool} {body body' : Run Completion}
    (htest : Agrees test test') (hbody : Agrees body body') (fuel : Nat) :
    Agrees (whileLoop test body fuel) (whileLoop test' body' fuel) := by
  induction fuel with
  | zero => exact agree_throw _
  | succ fuel ih =>
    refine htest.bind_eq fun _ => .ite (hbody.bind_eq fun completion => ?_) (agree_pure rfl)
    cases completion with
    | next => exact ih
    | returned value => exact agree_pure rfl

theorem agrees_stmts {ss : List Stmt}
    (h : ∀ s ∈ ss, Agrees (stmt call fuel s) (stmt call' fuel s.normal)) :
    Agrees (stmts call fuel ss) (stmts call' fuel (ss.map Stmt.normal)) := by
  induction ss with
  | nil => exact agree_pure rfl
  | cons s ss ih =>
    rw [List.forall_mem_cons] at h
    refine h.1.bind_eq fun completion => ?_
    cases completion with
    | next => exact ih h.2
    | returned value => exact agree_pure rfl

section

variable (hcall : ∀ f args, Agrees (call f args) (call' f args))
include hcall

theorem agrees_stmt (s : Stmt) : Agrees (stmt call fuel s) (stmt call' fuel s.normal) := by
  induction s with
  | expression p value =>
    exact ((agrees_expr hcall value).bind_eq fun _ => agree_pure rfl).locate
  | declare b => exact ((agrees_declare hcall b).bind_eq fun _ => agree_pure rfl).locate
  | assign p receiver value =>
    exact ((agrees_assign hcall receiver value).bind_eq fun _ => agree_pure rfl).locate
  | conditional p e thenBody elseBody hthen helse =>
    rw [Stmt.normal_conditional]
    refine ((agrees_condition hcall e).bind_eq fun _ => ?_).locate
    exact .ite (agrees_inScope (agrees_stmts hthen)) (agrees_inScope (agrees_stmts helse))
  | forLoop p name iterable body ih =>
    rw [Stmt.normal_forLoop]
    refine ((agrees_expr hcall iterable).bind_eq fun v => ?_).locate
    cases v with
    | range start stop =>
      refine agrees_forLoop (fun i => agrees_inScope ?_) _ _
      exact (agrees_define _ _ _).bind_eq fun _ => agrees_stmts ih
    | _ => exact agree_fail _
  | whileLoop p e body ih =>
    rw [Stmt.normal_whileLoop]
    exact (agrees_whileLoop (agrees_condition hcall e) (agrees_inScope (agrees_stmts ih))
      fuel).locate
  | ret p value => exact ((agrees_expr hcall value).bind_eq fun _ => agree_pure rfl).locate
  | unknown p label => exact (agree_fail _).locate

end

/-! ## Calls -/

theorem agrees_inCall {x y : Run α} (closure : FrameId) (h : Agrees x y) :
    Agrees (inCall closure x) (inCall closure y) := by
  refine agree_get.bind ?_
  rintro caller _ rfl
  refine (agree_modify ?_).bind_eq fun _ => h.ensuring (agree_modify ?_)
  · rintro m _ rfl
    rfl
  · rintro m _ rfl
    rfl

theorem agrees_defineParams (ps : List Param) (types : List Ty) (args : List Value) :
    Agrees (defineParams ps types args) (defineParams (ps.map Param.normal) types args) := by
  induction ps generalizing types args with
  | nil => exact agree_pure rfl
  | cons p ps ih =>
    cases types with
    | nil => exact agree_pure rfl
    | cons type types =>
      cases args with
      | nil => exact agree_pure rfl
      | cons arg args => exact (agrees_define _ _ _).bind_eq fun _ => ih types args

section

variable {body body' : List Stmt → Run Completion}
  (hbody : ∀ ss, Agrees (body ss) (body' (ss.map Stmt.normal)))
include hbody

theorem agrees_method (m : Method) (closure : FrameId) (types : List Ty) (args : List Value) :
    Agrees (method body m closure types args) (method body' m.normal closure types args) := by
  unfold method
  rw [m.normal_params, m.normal_body]
  have hrun : Agrees (do defineParams m.params types args; body m.body)
      (do defineParams (m.params.map Param.normal) types args; body' (m.body.map Stmt.normal)) :=
    (agrees_defineParams m.params types args).bind_eq fun _ => hbody m.body
  refine (agrees_inCall closure hrun).bind_eq fun completion => ?_
  cases completion <;> exact agree_pure rfl

theorem agrees_dispatch (f : FunctionId) (args : List Value) :
    Agrees (dispatch body f args) (dispatch body' f args) := by
  refine agree_get.bind ?_
  rintro m _ rfl
  have hfunction : m.normal.store.function f = (m.store.function f).normal :=
    Store.function_normal m.store f
  simp only [hfunction]
  cases hb : (m.store.function f).body with
  | absent =>
    simp only [Function.normal, hb, Body.normal]
    exact agree_fail _
  | native run =>
    simp only [Function.normal, hb, Body.normal]
    exact agree_ofExcept _
  | print =>
    simp only [Function.normal, hb, Body.normal]
    exact (agrees_note _).bind_eq fun _ => agree_pure rfl
  | method definition closure =>
    simp only [Function.normal, hb, Body.normal]
    refine (agrees_note _).bind_eq fun _ => ?_
    exact .ite (agree_fail _) (agrees_method hbody definition closure _ args)

end

theorem agrees_invoke (fuel : Nat) (f : FunctionId) (args : List Value) :
    Agrees (invoke fuel f args) (invoke fuel f args) := by
  induction fuel generalizing f args with
  | zero =>
    refine agrees_dispatch ?_ f args
    intro ss
    exact agree_throw _
  | succ fuel ih =>
    exact agrees_dispatch (fun ss => agrees_stmts fun s _ => agrees_stmt ih s) f args

/-! ## Programs -/

theorem agrees_defineMethod (m : Method) : Agrees (defineMethod m) (defineMethod m.normal) := by
  have hsignature : Agrees
      (ask fun s _ => do return (← s.paramTypes m.params, ← s.typeOrAny m.returnType))
      (ask fun s _ => do return (← s.paramTypes m.normal.params, ← s.typeOrAny m.returnType)) :=
    agrees_ask fun s _ => by rw [m.normal_params, Store.paramTypes_map, Store.paramTypes_normal]; rfl
  refine hsignature.bind_eq fun (types, returns) => ?_
  have hdefine : Agrees
      (update fun s f => s.defineFunction f ⟨m.name, types, some returns, .method m f⟩)
      (update fun s f => s.defineFunction f ⟨m.name, types, some returns, .method m.normal f⟩) := by
    refine agree_modifyGet ?_
    rintro a _ rfl
    have hdefined := Store.defineFunction_normal a.store a.scope
      ⟨m.name, types, some returns, .method m a.scope⟩
    have hid := congrArg Prod.fst hdefined
    have hstore := congrArg Prod.snd hdefined
    exact ⟨hid.symm, congrArg (fun s => { a with store := s }) hstore⟩
  exact hdefine.bind_eq fun _ => agree_pure rfl

theorem agrees_program (fuel : Nat) (p : Program) :
    Agrees (program fuel p) (program fuel p.normal) := by
  have hfield (b : Binding) : Agrees
      (do
        let r ← locate b.position (initial (invoke fuel) b)
        let _ ← define b.name r.2 (some r.1))
      (do
        let r ← locate b.normal.position (initial (invoke fuel) b.normal)
        let _ ← define b.normal.name r.2 (some r.1)) :=
    (agrees_initial (agrees_invoke fuel) b).locate.bind_eq fun _ =>
      (agrees_define _ _ _).bind_eq fun _ => agree_pure rfl
  refine (agree_forM hfield).bind_eq fun _ => (agree_forM agrees_defineMethod).bind_eq fun _ => ?_
  · exact (agrees_ask fun s f => s.lookupFunction_normal f "main" 0).bind_eq fun f =>
      (agrees_note _).bind_eq fun _ => agrees_invoke fuel f []

end Run

end BlockScript
