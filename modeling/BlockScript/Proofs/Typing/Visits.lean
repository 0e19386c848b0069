import BlockScript.Proofs.Pass.Blame
import BlockScript.Proofs.Syntax.Everywhere
import BlockScript.Proofs.Syntax.Induction
import BlockScript.Proofs.Typing.Restoring

/-!
# What goes on in an analysis

An analysis visits the nodes of a program, one within the other, each on the state that the visits
before it have led to.
-/

namespace BlockScript

open Attempt Pass

/-- What the analysis can be at. -/
inductive Item
  | program (p : Program)
  | fields (bs : List Binding)
  | field (b : Binding)
  | methods (ms : List Method)
  | method (m : Method)
  | statements (ss : List Stmt)
  | statement (s : Stmt)
  /-- Arguments for parameters of these types. -/
  | arguments (params : List Ty) (es : List Expr)
  /-- An argument that has this type, for a parameter of that one. -/
  | argument (e : Expr) (type param : Ty)
  | expression (e : Expr)

/-- An item, with the state that the analysis comes to it in. -/
structure Visit where
  item : Item
  state : Analysis

/-- The part that is checked first in any case. -/
def Expr.leading? : Expr → Option Expr
  | .group _ e | .binary _ _ e _ | .member _ e _ | .methodCall _ e _ _ => some e
  | .literal .. | .name .. | .call .. | .unknown .. => none

/-- The expression that is checked first in any case. -/
def Stmt.leading? : Stmt → Option Expr
  | .expression _ e | .conditional _ e _ _ | .forLoop _ _ e _ | .whileLoop _ e _ => some e
  | .declare _ | .assign .. | .ret .. | .unknown .. => none

namespace Visit

/-- The place of the node. An argument has the place of its expression. -/
def place? (v : Visit) : Option Position :=
  match v.item with
  | .field b => b.position
  | .method m => m.position
  | .statement s => s.position
  | .argument e .. | .expression e => e.position
  | .program _ | .fields _ | .methods _ | .statements _ | .arguments .. => none

/-- How the analysis fails in the visit, if it does. -/
def failure? (v : Visit) : Option Failure :=
  match v.item with
  | .program p => Attempt.failure? (Check.program p v.state)
  | .fields bs => Attempt.failure? (bs.mapM Check.field v.state)
  | .field b => Attempt.failure? (Check.field b v.state)
  | .methods ms => Attempt.failure? (ms.mapM Check.method v.state)
  | .method m => Attempt.failure? (Check.method m v.state)
  | .statements ss => Attempt.failure? (Check.stmts ss v.state)
  | .statement s => Attempt.failure? (Check.stmt s v.state)
  | .arguments params es => Attempt.failure? (Check.exprs params es v.state)
  | .argument e type param =>
    Attempt.failure? (locate e.position (ofExcept (param.requireAssignable type)) v.state)
  | .expression e => Attempt.failure? (Check.expr e v.state)

/-- The first visit has the second begin, directly. -/
inductive Begins : Visit → Visit → Prop
  | fields {p : Program} {a : Analysis} : Begins ⟨.program p, a⟩ ⟨.fields p.fields, a⟩
  | methods {p : Program} {a b : Analysis} {bs : List TypedBinding}
      (hfields : p.fields.mapM Check.field a = .ok bs b) :
      Begins ⟨.program p, a⟩ ⟨.methods p.methods, b⟩
  | field {d : Binding} {ds : List Binding} {a : Analysis} :
      Begins ⟨.fields (d :: ds), a⟩ ⟨.field d, a⟩
  | nextField {d : Binding} {ds : List Binding} {a b : Analysis} {typed : TypedBinding}
      (hd : Check.field d a = .ok typed b) : Begins ⟨.fields (d :: ds), a⟩ ⟨.fields ds, b⟩
  | method {m : Method} {ms : List Method} {a : Analysis} :
      Begins ⟨.methods (m :: ms), a⟩ ⟨.method m, a⟩
  | nextMethod {m : Method} {ms : List Method} {a b : Analysis} {typed : TypedMethod}
      (hm : Check.method m a = .ok typed b) : Begins ⟨.methods (m :: ms), a⟩ ⟨.methods ms, b⟩
  /-- The initial value of a field, once the type that the field names is known. -/
  | initial {d : Binding} {e : Expr} {a : Analysis} {type : Option Ty} (he : d.value = some e)
      (htype : a.store.namedType d.type = .ok type) : Begins ⟨.field d, a⟩ ⟨.expression e, a⟩
  /-- The body of a method, once its signature is known. -/
  | body {m : Method} {a : Analysis} {types : List Ty} {returns : Option Ty}
      (htypes : a.store.paramTypes m.params = .ok types)
      (hreturns : a.store.namedType m.returnType = .ok returns) :
      Begins ⟨.method m, a⟩ ⟨.statements m.body, a.inBody m types returns⟩
  | statement {s : Stmt} {ss : List Stmt} {a : Analysis} :
      Begins ⟨.statements (s :: ss), a⟩ ⟨.statement s, a⟩
  | nextStatement {s : Stmt} {ss : List Stmt} {a b : Analysis} {typed : TypedStmt}
      (hs : Check.stmt s a = .ok typed b) : Begins ⟨.statements (s :: ss), a⟩ ⟨.statements ss, b⟩
  | leading {s : Stmt} {e : Expr} {a : Analysis} (he : s.leading? = some e) :
      Begins ⟨.statement s, a⟩ ⟨.expression e, a⟩
  | declared {d : Binding} {e : Expr} {a : Analysis} {type : Option Ty} (he : d.value = some e)
      (htype : a.store.namedType d.type = .ok type) :
      Begins ⟨.statement (.declare d), a⟩ ⟨.expression e, a⟩
  | target {p : Position} {target e : Expr} {a : Analysis}
      (htarget : Check.isTarget target = true) :
      Begins ⟨.statement (.assign p target e), a⟩ ⟨.expression target, a⟩
  | value {p : Position} {target e : Expr} {a b : Analysis} {typed : TypedExpr}
      (htarget : Check.isTarget target = true) (hb : Check.expr target a = .ok typed b) :
      Begins ⟨.statement (.assign p target e), a⟩ ⟨.expression e, b⟩
  | returned {p : Position} {e : Expr} {a : Analysis} {f : FunctionId} (hown : a.own = some f) :
      Begins ⟨.statement (.ret p e), a⟩ ⟨.expression e, a⟩
  | thenBody {p : Position} {e : Expr} {thenBody elseBody : List Stmt} {a b : Analysis}
      {typed : TypedExpr} (he : Check.condition e a = .ok typed b) (hbody : thenBody ≠ []) :
      Begins ⟨.statement (.conditional p e thenBody elseBody), a⟩
        ⟨.statements thenBody, b.enterFrame b.scope⟩
  | elseBody {p : Position} {e : Expr} {thenBody elseBody : List Stmt} {a b c : Analysis}
      {typed : TypedExpr} {ts : List TypedStmt} (he : Check.condition e a = .ok typed b)
      (hbody : thenBody ≠ []) (hthen : inScope (Check.stmts thenBody) b = .ok ts c) :
      Begins ⟨.statement (.conditional p e thenBody elseBody), a⟩
        ⟨.statements elseBody, c.enterFrame c.scope⟩
  | round {p : Position} {name : String} {e : Expr} {body : List Stmt} {a b c : Analysis}
      {typed : TypedExpr} {v : SlotId} (he : Check.expr e a = .ok typed b)
      (htype : Ty.iterable.requireAssignable typed.type = .ok ⟨⟩) (hbody : body ≠ [])
      (hv : define name .integer none (b.enterFrame b.scope) = .ok v c) :
      Begins ⟨.statement (.forLoop p name e body), a⟩ ⟨.statements body, c⟩
  | turn {p : Position} {e : Expr} {body : List Stmt} {a b : Analysis} {typed : TypedExpr}
      (he : Check.condition e a = .ok typed b) :
      Begins ⟨.statement (.whileLoop p e body), a⟩ ⟨.statements body, b.enterFrame b.scope⟩
  | part {e part : Expr} {a : Analysis} (he : e.leading? = some part) :
      Begins ⟨.expression e, a⟩ ⟨.expression part, a⟩
  | right {p : Position} {op : Operator} {left right : Expr} {a b : Analysis} {typed : TypedExpr}
      (hleft : Check.expr left a = .ok typed b) :
      Begins ⟨.expression (.binary p op left right), a⟩ ⟨.expression right, b⟩
  | call {p : Position} {name : String} {es : List Expr} {a : Analysis} {f : FunctionId}
      (hf : a.store.lookupFunction a.scope name es.length = .ok f) :
      Begins ⟨.expression (.call p name es), a⟩ ⟨.arguments (a.store.function f).params es, a⟩
  | methodCall {p : Position} {receiver : Expr} {name : String} {es : List Expr} {a b : Analysis}
      {typed : TypedExpr} {f : FunctionId} (he : Check.expr receiver a = .ok typed b)
      (hf : b.store.lookupMethod typed.type name es.length = .ok f) :
      Begins ⟨.expression (.methodCall p receiver name es), a⟩
        ⟨.arguments (b.store.function f).params.tail es, b⟩
  | checked {params : List Ty} {e : Expr} {es : List Expr} {a : Analysis} :
      Begins ⟨.arguments params (e :: es), a⟩ ⟨.expression e, a⟩
  | argument {params : List Ty} {e : Expr} {es : List Expr} {a b : Analysis} {typed : TypedExpr}
      (he : Check.expr e a = .ok typed b) :
      Begins ⟨.arguments params (e :: es), a⟩ ⟨.argument e typed.type (params.headD .any), b⟩
  | nextArgument {params : List Ty} {e : Expr} {es : List Expr} {a b : Analysis} {typed : TypedExpr}
      (he : Check.expr e a = .ok typed b)
      (hfits : (params.headD .any).requireAssignable typed.type = .ok ⟨⟩) :
      Begins ⟨.arguments params (e :: es), a⟩ ⟨.arguments params.tail es, b⟩

/-- The visits of an analysis, one within the other. -/
def nesting : Nesting Visit := ⟨Begins, place?, failure?⟩

variable {v w : Visit}

/-! ## Nodes -/

/-- How much there is to visit. -/
noncomputable def size (v : Visit) : Nat :=
  match v.item with
  | .program p => sizeOf p
  | .fields bs => sizeOf bs
  | .field b => sizeOf b
  | .methods ms => sizeOf ms
  | .method m => sizeOf m
  | .statements ss => sizeOf ss
  | .statement s => sizeOf s
  | .arguments _ es => sizeOf es + 1
  | .argument .. => 0
  | .expression e => sizeOf e + 1

theorem size_lt_of_begins (h : v.Begins w) : w.size < v.size := by
  cases h with
  | @fields p => exact p.sizeOf_fields_lt
  | @methods p => exact p.sizeOf_methods_lt
  | initial he => exact Binding.sizeOf_lt_of_value he
  | @body m => exact m.sizeOf_body_lt
  | @leading s e a he =>
    cases s with
    | expression p | conditional p | forLoop p | whileLoop p =>
      have := p.sizeOf_pos
      cases he
      simp only [size, Stmt.expression.sizeOf_spec, Stmt.conditional.sizeOf_spec,
        Stmt.forLoop.sizeOf_spec, Stmt.whileLoop.sizeOf_spec]
      omega
    | _ => cases he
  | declared he =>
    have := Binding.sizeOf_lt_of_value he
    simp only [size, Stmt.declare.sizeOf_spec]
    omega
  | @target p | @value p | @returned p =>
    have := p.sizeOf_pos
    simp only [size, Stmt.assign.sizeOf_spec, Stmt.ret.sizeOf_spec]
    omega
  | @part e part a he =>
    cases e with
    | group p | binary p | member p | methodCall p =>
      have := p.sizeOf_pos
      cases he
      simp only [size, Expr.group.sizeOf_spec, Expr.binary.sizeOf_spec, Expr.member.sizeOf_spec,
        Expr.methodCall.sizeOf_spec]
      omega
    | _ => cases he
  | _ => simp [size] <;> omega

/-- The names, operators and literals of the item are those of the language. -/
def IsWellFormed (v : Visit) : Prop :=
  match v.item with
  | .program p => p.WellFormed
  | .fields bs => ∀ b ∈ bs, b.Consists Expr.WellFormed IsIdentifier
  | .field b => b.Consists Expr.WellFormed IsIdentifier
  | .methods ms => ∀ m ∈ ms, m.Consists Expr.WellFormed IsIdentifier
  | .method m => m.Consists Expr.WellFormed IsIdentifier
  | .statements ss => ∀ s ∈ ss, s.Consists Expr.WellFormed IsIdentifier
  | .statement s => s.Consists Expr.WellFormed IsIdentifier
  | .arguments _ es => ∀ e ∈ es, e.WellFormed
  | .argument .. => True
  | .expression e => e.WellFormed

theorem isWellFormed_of_begins (h : v.Begins w) (hv : v.IsWellFormed) : w.IsWellFormed := by
  cases h with
  | fields => exact hv.1
  | methods => exact hv.2
  | field | method | statement | checked => exact (List.forall_mem_cons.mp hv).1
  | nextField | nextMethod | nextStatement | nextArgument => exact (List.forall_mem_cons.mp hv).2
  | initial he | declared he => exact hv.2.2 _ he
  | body => exact (Stmt.allConsist_iff _).mp hv.2.2.2
  | @leading s e a he =>
    cases s with
    | expression =>
      cases he
      exact hv
    | conditional | whileLoop =>
      cases he
      exact hv.1
    | forLoop =>
      cases he
      exact hv.2.1
    | _ => cases he
  | target => exact hv.1
  | value => exact hv.2
  | returned => exact hv
  | thenBody => exact (Stmt.allConsist_iff _).mp hv.2.1
  | elseBody => exact (Stmt.allConsist_iff _).mp hv.2.2
  | round => exact (Stmt.allConsist_iff _).mp hv.2.2
  | turn => exact (Stmt.allConsist_iff _).mp hv.2
  | @part e part a he =>
    cases e with
    | group =>
      cases he
      exact hv
    | binary =>
      cases he
      exact hv.2.1
    | member | methodCall =>
      cases he
      exact hv.1
    | _ => cases he
  | right => exact hv.2.2
  | call => exact (Expr.allWellFormed_iff _).mp hv.2
  | methodCall => exact (Expr.allWellFormed_iff _).mp hv.2.2
  | argument => trivial

/-! ## States -/

section

variable {α : Type} {x : Check α} {a b : Analysis} {r : α}

theorem sound_of_keeps (hx : Keeps Check.Leaving x) (hrun : x a = .ok r b) (ha : a.Sound) :
    b.Sound :=
  ((hx a).of_ok hrun ha).sound

theorem sound_of_inert (hx : Inert x) (hrun : x a = .ok r b) (ha : a.Sound) : b.Sound :=
  sound_of_keeps hx.keeps hrun ha

end

theorem sound_of_begins (h : v.Begins w) (hv : v.state.Sound) : w.state.Sound := by
  cases h with
  | fields | field | method | initial | statement | leading | declared | target | returned | part
  | call | checked => exact hv
  | methods hfields =>
    exact sound_of_keeps (keeps_mapM fun d _ => Check.leaving_field d) hfields hv
  | @nextField d _ _ _ _ hd => exact sound_of_keeps (Check.leaving_field d) hd hv
  | @nextMethod m _ _ _ _ hm => exact sound_of_keeps (Check.leaving_method m) hm hv
  | @body m _ types returns => exact Analysis.sound_inBody hv m types returns
  | @nextStatement s _ _ _ _ hs =>
    exact sound_of_keeps (Check.keeps_leaving (Check.upholds_careful.keeps_stmt s)) hs hv
  | value _ hb => exact sound_of_inert (Check.inert_expr _) hb hv
  | thenBody he =>
    have hb := sound_of_inert (Check.inert_condition _) he hv
    exact hb.enterFrame hb.scope
  | @elseBody _ _ thenBody _ _ _ _ _ _ he _ hthen =>
    have hkeeps := Check.careful_inScope (Check.upholds_careful.keeps_block thenBody)
    have hb := sound_of_inert (Check.inert_condition _) he hv
    have hc := sound_of_keeps (Check.keeps_leaving hkeeps) hthen hb
    exact hc.enterFrame hc.scope
  | @round _ name _ _ _ _ _ _ _ he _ _ hdefine =>
    have hb := sound_of_inert (Check.inert_expr _) he hv
    exact sound_of_keeps (Check.keeps_leaving (Check.careful_define name .integer)) hdefine
      (hb.enterFrame hb.scope)
  | turn he =>
    have hb := sound_of_inert (Check.inert_condition _) he hv
    exact hb.enterFrame hb.scope
  | right he | methodCall he | argument he | nextArgument he =>
    exact sound_of_inert (Check.inert_expr _) he hv

end Visit

end BlockScript
