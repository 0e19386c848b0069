import BlockScript.Store.Basic

/-!
# Typed trees

Syntax trees with what the analysis finds out about them: the type of every expression, the slot
that every name and declaration stands for, and the function that every call goes to. `erase` takes
the findings away again.
-/

namespace BlockScript

inductive TypedExpr
  | literal (position : Position) (value : Literal) (type : Ty)
  | group (position : Position) (inner : TypedExpr) (type : Ty)
  | binary (position : Position) (op : Operator) (left right : TypedExpr) (type : Ty)
  | name (position : Position) (id : String) (slot : SlotId) (type : Ty)
  | member (position : Position) (receiver : TypedExpr) (name : String) (slot : SlotId) (type : Ty)
  | call (position : Position) (name : String) (arguments : List TypedExpr) (function : FunctionId)
    (type : Ty)
  | methodCall (position : Position) (receiver : TypedExpr) (name : String)
    (arguments : List TypedExpr) (function : FunctionId) (type : Ty)

namespace TypedExpr

def type : TypedExpr → Ty
  | literal _ _ t | group _ _ t | binary _ _ _ _ t | name _ _ _ t | member _ _ _ _ t
  | call _ _ _ _ t | methodCall _ _ _ _ _ t => t

mutual

def erase : TypedExpr → Expr
  | literal p value _ => .literal p value
  | group p inner _ => .group p inner.erase
  | binary p op left right _ => .binary p op left.erase right.erase
  | name p id _ _ => .name p id
  | member p receiver id _ _ => .member p receiver.erase id
  | call p id arguments _ _ => .call p id (eraseAll arguments)
  | methodCall p receiver id arguments _ _ =>
    .methodCall p receiver.erase id (eraseAll arguments)

def eraseAll : List TypedExpr → List Expr
  | [] => []
  | e :: es => e.erase :: eraseAll es

end

end TypedExpr

/-- A declaration and the variable that it makes. -/
structure TypedBinding where
  position : Position
  name : String
  declared : Option String
  value : Option TypedExpr
  slot : SlotId

def TypedBinding.erase (b : TypedBinding) : Binding :=
  ⟨b.position, b.name, b.declared, b.value.map TypedExpr.erase⟩

inductive TypedStmt
  | expression (position : Position) (value : TypedExpr)
  | declare (binding : TypedBinding)
  | assign (position : Position) (target value : TypedExpr)
  | conditional (position : Position) (condition : TypedExpr) (thenBody elseBody : List TypedStmt)
  | forLoop (position : Position) (name : String) (iterable : TypedExpr) (slot : SlotId)
    (body : List TypedStmt)
  | whileLoop (position : Position) (condition : TypedExpr) (body : List TypedStmt)
  | ret (position : Position) (value : TypedExpr)

namespace TypedStmt

mutual

def erase : TypedStmt → Stmt
  | expression p value => .expression p value.erase
  | declare b => .declare b.erase
  | assign p target value => .assign p target.erase value.erase
  | conditional p condition thenBody elseBody =>
    .conditional p condition.erase (eraseAll thenBody) (eraseAll elseBody)
  | forLoop p name iterable _ body => .forLoop p name iterable.erase (eraseAll body)
  | whileLoop p condition body => .whileLoop p condition.erase (eraseAll body)
  | ret p value => .ret p value.erase

def eraseAll : List TypedStmt → List Stmt
  | [] => []
  | s :: rest => s.erase :: eraseAll rest

end

end TypedStmt

/-- A method, its function and the variables of its parameters. -/
structure TypedMethod where
  position : Position
  name : String
  params : List Param
  declared : Option String
  function : FunctionId
  slots : List SlotId
  body : List TypedStmt

def TypedMethod.erase (m : TypedMethod) : Method :=
  ⟨m.position, m.name, m.params, m.declared, TypedStmt.eraseAll m.body⟩

structure TypedProgram where
  fields : List TypedBinding
  methods : List TypedMethod

def TypedProgram.erase (p : TypedProgram) : Program :=
  ⟨p.fields.map TypedBinding.erase, p.methods.map TypedMethod.erase⟩

end BlockScript
