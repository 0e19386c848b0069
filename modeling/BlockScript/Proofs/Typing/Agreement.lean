import BlockScript.Proofs.Pass.Agreement
import BlockScript.Proofs.Store.Normal
import BlockScript.Typing.Check

/-!
# The analysis of a tree and of its normal form

They agree, and what they give are a typed tree and its normal form. The states are the same at
every point, since the analysis keeps nothing of a tree.
-/

namespace BlockScript.Check

open Attempt Pass

variable {α β : Type} {Q : α → β → Prop}

theorem agree_inScope {x : Check α} {y : Check β} (h : Agree Eq Q x y) :
    Agree Eq Q (inScope x) (inScope y) :=
  Pass.agree_inScope (by rintro _ _ rfl; rfl) (by rintro _ _ rfl; rfl) (by rintro _ _ _ rfl; rfl) h

/-! ## Expressions -/

/-- The attempts give a typed tree of `e` and its normal form. -/
def AgreeOn (e : Expr) (x y : Check TypedExpr) : Prop :=
  Agree Eq (fun t t' => t.erase = e ∧ t' = t.normal) x y

theorem agree_groupIf {e : Expr} (h : AgreeOn e (expr e) (expr e.normal)) (needed : Bool) :
    Agree Eq (fun t t' => t.erase = e ∧ t' = t.normal.groupIf needed) (expr e)
      (expr (e.normal.groupIf needed)) := by
  cases needed with
  | false => exact h
  | true =>
    refine Agree.locate_right (Agree.map h ?_)
    rintro t _ ⟨rfl, rfl⟩
    exact ⟨rfl, by simp [TypedExpr.groupIf]⟩

theorem agree_exprs {es : List Expr} (h : ∀ e ∈ es, AgreeOn e (expr e) (expr e.normal))
    (params : List Ty) :
    Agree Eq (fun ts ts' => TypedExpr.eraseAll ts = es ∧ ts' = TypedExpr.normalAll ts)
      (exprs params es) (exprs params (es.map Expr.normal)) := by
  induction es generalizing params with
  | nil => exact agree_pure ⟨rfl, rfl⟩
  | cons e es ih =>
    rw [List.forall_mem_cons] at h
    refine h.1.bind ?_
    rintro t _ ⟨rfl, rfl⟩
    rw [TypedExpr.type_normal]
    refine (agree_refl _).locate.bind_eq fun _ => (ih h.2 params.tail).bind ?_
    rintro ts _ ⟨rfl, rfl⟩
    exact agree_pure ⟨rfl, rfl⟩

theorem agree_expr (e : Expr) : AgreeOn e (expr e) (expr e.normal) := by
  induction e with
  | literal p value =>
    exact Agree.locate ((agree_refl _).bind_eq fun t => agree_pure ⟨rfl, rfl⟩)
  | group p inner ih =>
    refine Agree.locate (Agree.bind ih ?_)
    rintro t _ ⟨rfl, rfl⟩
    exact agree_pure ⟨rfl, by simp [TypedExpr.normal]⟩
  | binary p op left right hl hr =>
    rw [Expr.normal_binary]
    refine Agree.locate ((agree_groupIf hl _).bind ?_)
    rintro left _ ⟨rfl, rfl⟩
    refine (agree_groupIf hr _).bind ?_
    rintro right _ ⟨rfl, rfl⟩
    simp only [TypedExpr.type_groupIf, TypedExpr.type_normal]
    exact (agree_refl _).bind_eq fun t => agree_pure ⟨rfl, rfl⟩
  | name p id =>
    refine Agree.locate ((agree_refl _).bind_eq fun slot => ?_)
    exact (agree_refl get).bind_eq fun a => agree_pure ⟨rfl, rfl⟩
  | member p receiver id ih =>
    rw [Expr.normal_member]
    refine Agree.locate ((agree_groupIf ih _).bind ?_)
    rintro receiver _ ⟨rfl, rfl⟩
    simp only [TypedExpr.type_groupIf, TypedExpr.type_normal]
    refine (agree_refl _).bind_eq fun slot => ?_
    exact (agree_refl get).bind_eq fun a => agree_pure ⟨rfl, rfl⟩
  | call p id arguments ih =>
    rw [Expr.normal_call]
    simp only [expr, List.length_map]
    refine Agree.locate ((agree_refl _).bind_eq fun f => (agree_refl get).bind_eq fun a => ?_)
    refine (agree_exprs ih _).bind ?_
    rintro typed _ ⟨rfl, rfl⟩
    exact (agree_refl (callType f)).bind_eq fun t => agree_pure ⟨rfl, rfl⟩
  | methodCall p receiver id arguments hr ih =>
    rw [Expr.normal_methodCall]
    simp only [expr, List.length_map]
    refine Agree.locate ((agree_groupIf hr _).bind ?_)
    rintro receiver _ ⟨rfl, rfl⟩
    simp only [TypedExpr.type_groupIf, TypedExpr.type_normal]
    refine (agree_refl _).bind_eq fun f => (agree_refl get).bind_eq fun a => ?_
    refine (agree_exprs ih _).bind ?_
    rintro typed _ ⟨rfl, rfl⟩
    exact (agree_refl (callType f)).bind_eq fun t => agree_pure ⟨rfl, rfl⟩
  | unknown p label => exact agree_throw _

theorem agree_condition (e : Expr) : AgreeOn e (condition e) (condition e.normal) := by
  refine Agree.bind (agree_expr e) ?_
  rintro t _ ⟨rfl, rfl⟩
  rw [TypedExpr.type_normal]
  exact .ite (agree_pure ⟨rfl, rfl⟩) (agree_fail _)

/-! ## Statements -/

theorem agree_binding (b : Binding) :
    Agree Eq (fun t t' => t.erase = b ∧ t' = t.normal) (binding b) (binding b.normal) := by
  obtain ⟨p, name, type, value⟩ := b
  refine (agree_refl (ask fun s _ => s.namedType type)).bind_eq fun annotated => ?_
  cases value with
  | none =>
    cases annotated with
    | none => exact agree_fail _
    | some type => exact (agree_refl _).bind_eq fun v => agree_pure ⟨rfl, rfl⟩
  | some value =>
    refine (agree_expr value).bind ?_
    rintro t _ ⟨rfl, rfl⟩
    simp only [TypedExpr.type_normal]
    refine (agree_refl _).bind_eq fun _ => ?_
    exact (agree_refl _).bind_eq fun v => agree_pure ⟨rfl, rfl⟩

theorem isTarget_normal (e : Expr) : isTarget e.normal = isTarget e := by cases e <;> rfl

/-- The attempts give a typed statement of `s` and its normal form. -/
def AgreeOnStmt (s : Stmt) (x y : Check TypedStmt) : Prop :=
  Agree Eq (fun t t' => t.erase = s ∧ t' = t.normal) x y

theorem agree_assignment (p : Position) (target value : Expr) :
    AgreeOnStmt (.assign p target value) (assignment p target value)
      (assignment .start target.normal value.normal) := by
  unfold assignment
  rw [isTarget_normal]
  refine Agree.ite ?_ (agree_fail _)
  refine (agree_expr target).bind ?_
  rintro target _ ⟨rfl, rfl⟩
  refine (agree_expr value).bind ?_
  rintro value _ ⟨rfl, rfl⟩
  simp only [TypedExpr.type_normal]
  exact (agree_refl _).bind_eq fun _ => agree_pure ⟨rfl, rfl⟩

theorem agree_returned (p : Position) (value : Expr) :
    AgreeOnStmt (.ret p value) (returned p value) (returned .start value.normal) := by
  refine (agree_refl get).bind_eq fun a => ?_
  cases a.own with
  | none => exact agree_fail _
  | some f =>
    refine (agree_expr value).bind ?_
    rintro value _ ⟨rfl, rfl⟩
    simp only [TypedExpr.type_normal]
    refine (agree_refl get).bind_eq fun a => ?_
    cases (a.store.function f).returns with
    | none => exact (agree_refl _).bind_eq fun _ => agree_pure ⟨rfl, rfl⟩
    | some type => exact (agree_refl _).bind_eq fun _ => agree_pure ⟨rfl, rfl⟩

theorem requireBody_map (opener : Keyword) (body : List Stmt) :
    requireBody opener (body.map Stmt.normal) = requireBody opener body := by
  cases body <;> rfl

/-- The attempts give the typed statements of a body and their normal forms. -/
def AgreeOnBody (ss : List Stmt) (x y : Check (List TypedStmt)) : Prop :=
  Agree Eq (fun ts ts' => TypedStmt.eraseAll ts = ss ∧ ts' = TypedStmt.normalAll ts) x y

/-- A body, and what is found out beside it. -/
theorem agree_beside (x : Check α) {ss : List Stmt} {y y' : Check (List TypedStmt)}
    (h : AgreeOnBody ss y y') :
    Agree Eq (fun r r' => r.1 = r'.1 ∧ TypedStmt.eraseAll r.2 = ss ∧
        r'.2 = TypedStmt.normalAll r.2)
      (do let v ← x; return (v, ← y)) (do let v ← x; return (v, ← y')) := by
  refine (agree_refl x).bind_eq fun v => Agree.bind h ?_
  rintro body _ ⟨rfl, rfl⟩
  exact agree_pure ⟨rfl, rfl, rfl⟩

theorem agree_stmts {ss : List Stmt} (h : ∀ s ∈ ss, AgreeOnStmt s (stmt s) (stmt s.normal)) :
    AgreeOnBody ss (stmts ss) (stmts (ss.map Stmt.normal)) := by
  induction ss with
  | nil => exact agree_pure ⟨rfl, rfl⟩
  | cons s ss ih =>
    rw [List.forall_mem_cons] at h
    refine h.1.bind ?_
    rintro t _ ⟨rfl, rfl⟩
    refine (ih h.2).bind ?_
    rintro ts _ ⟨rfl, rfl⟩
    exact agree_pure ⟨rfl, rfl⟩

theorem agree_stmt (s : Stmt) : AgreeOnStmt s (stmt s) (stmt s.normal) := by
  induction s with
  | expression p value =>
    refine Agree.locate ((agree_expr value).bind ?_)
    rintro t _ ⟨rfl, rfl⟩
    exact agree_pure ⟨rfl, rfl⟩
  | declare b =>
    refine Agree.locate ((agree_binding b).bind ?_)
    rintro t _ ⟨rfl, rfl⟩
    exact agree_pure ⟨rfl, rfl⟩
  | assign p target value => exact (agree_assignment p target value).locate
  | conditional p e thenBody elseBody hthen helse =>
    rw [Stmt.normal_conditional]
    refine Agree.locate ((agree_condition e).bind ?_)
    rintro e _ ⟨rfl, rfl⟩
    rw [requireBody_map]
    refine (agree_refl _).bind_eq fun _ => (agree_inScope (agree_stmts hthen)).bind ?_
    rintro thenBody _ ⟨rfl, rfl⟩
    refine (agree_inScope (agree_stmts helse)).bind ?_
    rintro elseBody _ ⟨rfl, rfl⟩
    exact agree_pure ⟨rfl, rfl⟩
  | forLoop p name iterable body ih =>
    rw [Stmt.normal_forLoop]
    refine Agree.locate ((agree_expr iterable).bind ?_)
    rintro iterable _ ⟨rfl, rfl⟩
    simp only [TypedExpr.type_normal, requireBody_map]
    refine (agree_refl _).bind_eq fun _ => (agree_refl _).bind_eq fun _ => ?_
    refine (agree_inScope (agree_beside (define name .integer none) (agree_stmts ih))).bind ?_
    rintro ⟨slot, body⟩ ⟨_, _⟩ ⟨rfl, rfl, rfl⟩
    exact agree_pure ⟨rfl, rfl⟩
  | whileLoop p e body ih =>
    rw [Stmt.normal_whileLoop]
    refine Agree.locate ((agree_condition e).bind ?_)
    rintro e _ ⟨rfl, rfl⟩
    refine (agree_inScope (agree_stmts ih)).bind ?_
    rintro body _ ⟨rfl, rfl⟩
    exact agree_pure ⟨rfl, rfl⟩
  | ret p value => exact (agree_returned p value).locate
  | unknown p label => exact agree_throw _

/-! ## Programs -/

theorem defineParams_map (ps : List Param) (types : List Ty) :
    defineParams (ps.map Param.normal) types = defineParams ps types := by
  induction ps generalizing types with
  | nil => rfl
  | cons p ps ih =>
    cases types with
    | nil => rfl
    | cons type types =>
      simp only [List.map_cons, defineParams, ih]
      rfl

theorem agree_method (m : Method) :
    Agree Eq (fun t t' => t.erase = m ∧ t' = t.normal) (method m) (method m.normal) := by
  unfold method
  simp only [m.normal_params, m.normal_body, Store.paramTypes_map, defineParams_map]
  refine (agree_refl _).locate.bind_eq fun (types, returns) => ?_
  refine (agree_refl _).bind_eq fun f => (agree_refl _).bind_eq fun _ => ?_
  have hbody : AgreeOnBody m.body _ _ := agree_stmts fun s _ => agree_stmt s
  refine (agree_refl get).bind_eq fun a => (agree_refl _).bind_eq fun _ => ?_
  refine ((agree_inScope (agree_beside (defineParams m.params types) hbody)).ensuring
    (agree_refl _)).bind ?_
  rintro ⟨slots, body⟩ ⟨_, _⟩ ⟨rfl, herase, rfl⟩
  refine (agree_refl get).bind_eq fun a => ?_
  split
  · exact (agree_refl _).bind_eq fun _ => agree_pure ⟨by rw [TypedMethod.erase, herase], rfl⟩
  · exact agree_pure ⟨by rw [TypedMethod.erase, herase], rfl⟩

theorem agree_program (p : Program) :
    Agree Eq (fun t t' => t.erase = p ∧ t' = t.normal) (program p) (program p.normal) := by
  refine (agree_mapM fun b => (agree_binding b).locate).bind ?_
  rintro fields _ ⟨hfields, rfl⟩
  refine (agree_mapM agree_method).bind ?_
  rintro methods _ ⟨hmethods, rfl⟩
  refine (agree_refl _).bind_eq fun _ => agree_pure ⟨?_, rfl⟩
  rw [TypedProgram.erase, hfields, hmethods]

end BlockScript.Check
