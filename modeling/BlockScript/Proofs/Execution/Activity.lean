import BlockScript.Execution.Run
import Mathlib.Logic.Relation

/-!
# What goes on in a run

A run consists of activities, each of which begins where those before it have led to. So one can
tell which assignments a run executes, which variables they resolve to and what they store there,
and which texts it prints.
-/

namespace BlockScript

open Pass Run

/-- What a machine may have to do. -/
inductive Task
  | program (p : Program)
  | fields (bs : List Binding)
  | call (f : FunctionId) (args : List Value)
  | statements (ss : List Stmt)
  | statement (s : Stmt)
  /-- A FOR with `count` rounds to go, the next one for `i`. -/
  | rounds (name : String) (body : List Stmt) (count : Nat) (i : Int)
  /-- A WHILE with fuel for `left` more turns. -/
  | turns (e : Expr) (body : List Stmt) (left : Nat)
  | expressions (es : List Expr)
  | expression (e : Expr)

/-- A task, with the fuel for it and the machine that it begins on. -/
structure Activity where
  fuel : Nat
  task : Task
  machine : Machine

/-- The operands that are evaluated in any case, in order. -/
def Expr.operands : Expr → List Expr
  | .group _ inner => [inner]
  | .binary _ op left right => if (decisive? op).isSome then [left] else [left, right]
  | .member _ receiver _ => [receiver]
  | .call _ _ arguments => arguments
  | .methodCall _ receiver _ arguments => receiver :: arguments
  | .literal .. | .name .. | .unknown .. => []

/-- The expression that is evaluated first, once. -/
def Stmt.operand? : Stmt → Option Expr
  | .expression _ e | .conditional _ e _ _ | .forLoop _ _ e _ | .ret _ e => some e
  | .declare b => b.value
  | .assign _ (.member _ receiver _) _ => some receiver
  | .assign .. | .whileLoop .. | .unknown .. => none

namespace Run

/-- Makes a field of a program. -/
def makeField (fuel : Nat) (b : Binding) : Run Unit := do
  let (value, type) ← Attempt.locate b.position (initial (invoke fuel) b)
  let _ ← define b.name type (some value)

/-- A round of a FOR. -/
def round (fuel : Nat) (name : String) (body : List Stmt) (i : Int) : Run Completion :=
  inScope do
    let _ ← define name .integer (some (.integer i))
    stmts (invoke fuel) fuel body

end Run

namespace Activity

/-- The first activity has the second begin, directly. -/
inductive Begins : Activity → Activity → Prop
  | fields {k : Nat} {p : Program} {m : Machine} :
      Begins ⟨k, .program p, m⟩ ⟨k, .fields p.fields, m⟩
  | main {k : Nat} {p : Program} {m n o : Machine} {f : FunctionId}
      (hfields : p.fields.forM (makeField k) m = .ok ⟨⟩ n)
      (hmethods : p.methods.forM defineMethod n = .ok ⟨⟩ o)
      (hmain : o.store.lookupFunction o.scope "main" 0 = .ok f) :
      Begins ⟨k, .program p, m⟩ ⟨k, .call f [], { o with log := .entryPointInvoked :: o.log }⟩
  | field {k : Nat} {b : Binding} {bs : List Binding} {m : Machine} {e : Expr}
      (he : b.value = some e) : Begins ⟨k, .fields (b :: bs), m⟩ ⟨k, .expression e, m⟩
  | nextField {k : Nat} {b : Binding} {bs : List Binding} {m n : Machine}
      (hb : makeField k b m = .ok ⟨⟩ n) : Begins ⟨k, .fields (b :: bs), m⟩ ⟨k, .fields bs, n⟩
  | body {k : Nat} {f : FunctionId} {args : List Value} {m n : Machine} {d : Method}
      {closure : FrameId} (hf : (m.store.function f).body = .method d closure)
      (hdepth : ¬ maxCalls ≤ m.depth)
      (hparams : defineParams d.params (m.store.function f).params args
        (enterCall closure { m with log := .calling d.name args.length :: m.log }) = .ok ⟨⟩ n) :
      Begins ⟨k + 1, .call f args, m⟩ ⟨k, .statements d.body, n⟩
  | statement {k : Nat} {s : Stmt} {ss : List Stmt} {m : Machine} :
      Begins ⟨k, .statements (s :: ss), m⟩ ⟨k, .statement s, m⟩
  | nextStatement {k : Nat} {s : Stmt} {ss : List Stmt} {m n : Machine}
      (hs : stmt (invoke k) k s m = .ok .next n) :
      Begins ⟨k, .statements (s :: ss), m⟩ ⟨k, .statements ss, n⟩
  | operand {k : Nat} {s : Stmt} {m : Machine} {e : Expr} (he : s.operand? = some e) :
      Begins ⟨k, .statement s, m⟩ ⟨k, .expression e, m⟩
  /-- The value of an assignment, after its target. -/
  | value {k : Nat} {p : Position} {receiver e : Expr} {m n : Machine} {v : SlotId}
      (hv : target (invoke k) receiver m = .ok v n) :
      Begins ⟨k, .statement (.assign p receiver e), m⟩ ⟨k, .expression e, n⟩
  | branch {k : Nat} {p : Position} {e : Expr} {thenBody elseBody : List Stmt} {m n : Machine}
      {b : Bool} (hb : condition (invoke k) e m = .ok b n) :
      Begins ⟨k, .statement (.conditional p e thenBody elseBody), m⟩
        ⟨k, .statements (if b then thenBody else elseBody), n.enterFrame n.scope⟩
  | rounds {k : Nat} {p : Position} {name : String} {e : Expr} {body : List Stmt} {m n : Machine}
      {start stop : Int} (he : expr (invoke k) e m = .ok (.range start stop) n) :
      Begins ⟨k, .statement (.forLoop p name e body), m⟩
        ⟨k, .rounds name body (stop - start).toNat start, n⟩
  | round {k : Nat} {name : String} {body : List Stmt} {count : Nat} {i : Int} {m n : Machine}
      {v : SlotId}
      (hv : define name .integer (some (.integer i)) (m.enterFrame m.scope) = .ok v n) :
      Begins ⟨k, .rounds name body (count + 1) i, m⟩ ⟨k, .statements body, n⟩
  | nextRound {k : Nat} {name : String} {body : List Stmt} {count : Nat} {i : Int} {m n : Machine}
      (hi : round k name body i m = .ok .next n) :
      Begins ⟨k, .rounds name body (count + 1) i, m⟩ ⟨k, .rounds name body count (i + 1), n⟩
  | turns {k : Nat} {p : Position} {e : Expr} {body : List Stmt} {m : Machine} :
      Begins ⟨k, .statement (.whileLoop p e body), m⟩ ⟨k, .turns e body k, m⟩
  | test {k : Nat} {e : Expr} {body : List Stmt} {left : Nat} {m : Machine} :
      Begins ⟨k, .turns e body (left + 1), m⟩ ⟨k, .expression e, m⟩
  | turn {k : Nat} {e : Expr} {body : List Stmt} {left : Nat} {m n : Machine}
      (he : condition (invoke k) e m = .ok true n) :
      Begins ⟨k, .turns e body (left + 1), m⟩ ⟨k, .statements body, n.enterFrame n.scope⟩
  | nextTurn {k : Nat} {e : Expr} {body : List Stmt} {left : Nat} {m n o : Machine}
      (he : condition (invoke k) e m = .ok true n)
      (hbody : inScope (stmts (invoke k) k body) n = .ok .next o) :
      Begins ⟨k, .turns e body (left + 1), m⟩ ⟨k, .turns e body left, o⟩
  | expression {k : Nat} {e : Expr} {es : List Expr} {m : Machine} :
      Begins ⟨k, .expressions (e :: es), m⟩ ⟨k, .expression e, m⟩
  | nextExpression {k : Nat} {e : Expr} {es : List Expr} {m n : Machine} {v : Value}
      (he : expr (invoke k) e m = .ok v n) :
      Begins ⟨k, .expressions (e :: es), m⟩ ⟨k, .expressions es, n⟩
  | operands {k : Nat} {e : Expr} {es : List Expr} {m : Machine} (hes : e.operands = es) :
      Begins ⟨k, .expression e, m⟩ ⟨k, .expressions es, m⟩
  /-- The right operand of a logical operator, if the left one has not decided. -/
  | right {k : Nat} {p : Position} {op : Operator} {left right : Expr} {m n : Machine} {a b : Bool}
      (hop : decisive? op = some b) (ha : expr (invoke k) left m = .ok (.boolean a) n)
      (hab : a ≠ b) : Begins ⟨k, .expression (.binary p op left right), m⟩ ⟨k, .expression right, n⟩
  | call {k : Nat} {p : Position} {name : String} {es : List Expr} {m n : Machine}
      {args : List Value} {f : FunctionId} (hargs : exprs (invoke k) es m = .ok args n)
      (hf : n.store.lookupFunction n.scope name args.length = .ok f) :
      Begins ⟨k, .expression (.call p name es), m⟩ ⟨k, .call f args, n⟩
  | methodCall {k : Nat} {p : Position} {receiver : Expr} {name : String} {es : List Expr}
      {m n o : Machine} {v : Value} {args : List Value} {f : FunctionId}
      (hv : expr (invoke k) receiver m = .ok v n) (hargs : exprs (invoke k) es n = .ok args o)
      (hf : o.store.findMethod? v.type name args.length = some f) :
      Begins ⟨k, .expression (.methodCall p receiver name es), m⟩ ⟨k, .call f (v :: args), o⟩

/-- The second activity is part of the first. -/
abbrev Includes : Activity → Activity → Prop := Relation.ReflTransGen Begins

/-- The activity is an assignment whose target resolves to `v`, and which stores `w` there. -/
inductive Assigns : Activity → SlotId → Value → Prop
  | intro {k : Nat} {p : Position} {receiver e : Expr} {m n o : Machine} {v : SlotId} {w : Value}
      (hv : target (invoke k) receiver m = .ok v n) (hw : expr (invoke k) e n = .ok w o) :
      Assigns ⟨k, .statement (.assign p receiver e), m⟩ v w

/-- The activity is a call of the function that prints, for this text. -/
inductive Prints : Activity → String → Prop
  | intro {k : Nat} {f : FunctionId} {m : Machine} (args : List Value)
      (hf : (m.store.function f).body = .print) :
      Prints ⟨k, .call f args, m⟩ (Native.argument args 0).text

/-- An assignment in the activity stores `w` into `v`. -/
def Stores (a : Activity) (v : SlotId) (w : Value) : Prop := ∃ b, a.Includes b ∧ b.Assigns v w

variable {a b : Activity} {v : SlotId} {w : Value}

theorem Stores.of_includes (hab : a.Includes b) (h : b.Stores v w) : a.Stores v w := by
  obtain ⟨c, hbc, hc⟩ := h
  exact ⟨c, hab.trans hbc, hc⟩

end Activity

end BlockScript
