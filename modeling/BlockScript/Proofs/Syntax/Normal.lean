import BlockScript.Proofs.Syntax.Everywhere
import BlockScript.Typing.Tree

/-!
# Normal trees

A tree as its text says it: without places, and with a group around each operand and receiver that
needs parentheses. A typed tree has a normal form as well, in which a group that is put in has the
type of what is in it.
-/

namespace BlockScript

/-- The tree without its places and with the groups that its text needs. -/
def Expr.normal (e : Expr) : Expr := e.grouped.unplaced

namespace Expr

@[simp] theorem position_normal (e : Expr) : e.normal.position = .start := by cases e <;> rfl

theorem normal_binary (p : Position) (op : Operator) (left right : Expr) :
    (binary p op left right).normal =
      .binary .start op (left.normal.groupIf (left.strength < op.strength))
        (right.normal.groupIf (right.strength ≤ op.strength)) := by
  simp [normal, grouped, unplaced]

theorem normal_member (p : Position) (receiver : Expr) (id : String) :
    (member p receiver id).normal =
      .member .start (receiver.normal.groupIf (Printer.isOperation receiver)) id := by
  simp [normal, grouped, unplaced]

theorem normal_call (p : Position) (id : String) (arguments : List Expr) :
    (call p id arguments).normal = .call .start id (arguments.map normal) := by
  simp [normal, grouped, unplaced, groupedAll_eq_map, unplacedAll_eq_map, Function.comp_def]

theorem normal_methodCall (p : Position) (receiver : Expr) (id : String) (arguments : List Expr) :
    (methodCall p receiver id arguments).normal =
      .methodCall .start (receiver.normal.groupIf (Printer.isOperation receiver)) id
        (arguments.map normal) := by
  simp [normal, grouped, unplaced, groupedAll_eq_map, unplacedAll_eq_map, Function.comp_def]

end Expr

def Binding.normal : Binding → Binding := Binding.map Expr.normal fun _ => .start

def Stmt.normal : Stmt → Stmt := Stmt.map Expr.normal fun _ => .start

namespace Stmt

theorem normal_conditional (p : Position) (condition : Expr) (thenBody elseBody : List Stmt) :
    (conditional p condition thenBody elseBody).normal =
      .conditional .start condition.normal (thenBody.map normal) (elseBody.map normal) := by
  simp only [normal, map, mapAll_eq_map]

theorem normal_forLoop (p : Position) (name : String) (iterable : Expr) (body : List Stmt) :
    (forLoop p name iterable body).normal =
      .forLoop .start name iterable.normal (body.map normal) := by
  simp only [normal, map, mapAll_eq_map]

theorem normal_whileLoop (p : Position) (condition : Expr) (body : List Stmt) :
    (whileLoop p condition body).normal =
      .whileLoop .start condition.normal (body.map normal) := by
  simp only [normal, map, mapAll_eq_map]

end Stmt

def Param.normal : Param → Param := Param.map fun _ => .start

def Method.normal : Method → Method := Method.map Expr.normal fun _ => .start

theorem Method.normal_params (m : Method) : m.normal.params = m.params.map Param.normal := rfl

theorem Method.normal_body (m : Method) : m.normal.body = m.body.map Stmt.normal :=
  Stmt.mapAll_eq_map ..

@[inherit_doc Expr.normal]
def Program.normal : Program → Program := Program.map Expr.normal fun _ => .start

namespace Program

theorem normal_eq (p : Program) : p.normal = p.grouped.unplaced := by
  simp only [grouped, unplaced, map_map]
  rfl

/-- A canonical tree that is another one with its groups, apart from places, has the same normal
form. -/
theorem normal_eq_of_unplaced {p q : Program} (hq : q.Canonical)
    (h : q.unplaced = p.grouped.unplaced) : q.normal = p.normal := by
  rw [normal_eq, normal_eq, grouped_of_canonical hq, h]

end Program

/-! ## Typed trees -/

namespace TypedExpr

/-- A group around an expression, of the same type. -/
def groupIf (needed : Bool) (e : TypedExpr) : TypedExpr :=
  if needed then .group .start e e.type else e

mutual

@[inherit_doc Expr.normal]
def normal : TypedExpr → TypedExpr
  | literal _ value t => literal .start value t
  | group _ inner t => group .start inner.normal t
  | binary _ op left right t =>
    binary .start op (left.normal.groupIf (left.erase.strength < op.strength))
      (right.normal.groupIf (right.erase.strength ≤ op.strength)) t
  | name _ id slot t => name .start id slot t
  | member _ receiver id slot t =>
    member .start (receiver.normal.groupIf (Printer.isOperation receiver.erase)) id slot t
  | call _ id arguments f t => call .start id (normalAll arguments) f t
  | methodCall _ receiver id arguments f t =>
    methodCall .start (receiver.normal.groupIf (Printer.isOperation receiver.erase)) id
      (normalAll arguments) f t

def normalAll : List TypedExpr → List TypedExpr
  | [] => []
  | e :: es => e.normal :: normalAll es

end

@[simp] theorem type_normal (e : TypedExpr) : e.normal.type = e.type := by cases e <;> rfl

@[simp] theorem type_groupIf (needed : Bool) (e : TypedExpr) :
    (e.groupIf needed).type = e.type := by
  cases needed <;> rfl

end TypedExpr

@[inherit_doc Expr.normal]
def TypedBinding.normal (b : TypedBinding) : TypedBinding :=
  ⟨.start, b.name, b.declared, b.value.map TypedExpr.normal, b.slot⟩

namespace TypedStmt

mutual

@[inherit_doc Expr.normal]
def normal : TypedStmt → TypedStmt
  | expression _ value => expression .start value.normal
  | declare b => declare b.normal
  | assign _ target value => assign .start target.normal value.normal
  | conditional _ condition thenBody elseBody =>
    conditional .start condition.normal (normalAll thenBody) (normalAll elseBody)
  | forLoop _ name iterable slot body =>
    forLoop .start name iterable.normal slot (normalAll body)
  | whileLoop _ condition body => whileLoop .start condition.normal (normalAll body)
  | ret _ value => ret .start value.normal

def normalAll : List TypedStmt → List TypedStmt
  | [] => []
  | s :: rest => s.normal :: normalAll rest

end

end TypedStmt

@[inherit_doc Expr.normal]
def TypedMethod.normal (m : TypedMethod) : TypedMethod :=
  ⟨.start, m.name, m.params.map Param.normal, m.declared, m.function, m.slots,
    TypedStmt.normalAll m.body⟩

@[inherit_doc Expr.normal]
def TypedProgram.normal (p : TypedProgram) : TypedProgram :=
  ⟨p.fields.map TypedBinding.normal, p.methods.map TypedMethod.normal⟩

end BlockScript
