import BlockScript.Number.Integer
import BlockScript.Pass
import BlockScript.Store.Initial
import BlockScript.Typing.Operators
import BlockScript.Typing.Tree

/-!
# Static analysis

One pass over a program gives every expression its type and every name its declaration, or fails at
the first rule that is broken. Methods are checked in order, so a call reaches the methods defined
before it, and its own.
-/

namespace BlockScript

/-- The state of the analysis; of its own it keeps the method whose body it is in. -/
abbrev Analysis := Pass (Option FunctionId)

abbrev Check (α : Type) := Attempt Analysis α

namespace Check

open Pass

/-! ## Expressions -/

def literalType : Literal → Except Cause Ty
  | .nil => .ok .nil
  | .boolean _ => .ok .boolean
  | .character _ => .ok .character
  | .string _ => .ok .string
  | .integer value raw =>
    if Number.inRange value then .ok .integer else .error (.integerOverflow raw)
  | .decimal value raw =>
    if value.isFinite then .ok .decimal else .error (.decimalOverflow raw)

/-- The type of a call. While the return type of the function is open, it may be anything. -/
def callType (f : FunctionId) : Check Ty := do
  return ((← get).store.function f).returns.getD .any

mutual

def expr : Expr → Check TypedExpr
  | .literal p value => Attempt.locate p do
    return .literal p value (← Attempt.ofExcept (literalType value))
  | .group p inner => Attempt.locate p do
    let inner ← expr inner
    return .group p inner inner.type
  | .binary p op left right => Attempt.locate p do
    let left ← expr left
    let right ← expr right
    return .binary p op left right (← Attempt.ofExcept (op.resultType left.type right.type))
  | .name p id => Attempt.locate p do
    let slot ← ask fun s f => s.lookupSlot f id
    return .name p id slot ((← get).store.slot slot).type
  | .member p receiver name => Attempt.locate p do
    let receiver ← expr receiver
    let slot ← ask fun s _ => s.lookupField receiver.type name
    return .member p receiver name slot ((← get).store.slot slot).type
  | .call p name arguments => Attempt.locate p do
    let f ← ask fun s scope => s.lookupFunction scope name arguments.length
    let typed ← exprs ((← get).store.function f).params arguments
    return .call p name typed f (← callType f)
  | .methodCall p receiver name arguments => Attempt.locate p do
    let receiver ← expr receiver
    let f ← ask fun s _ => s.lookupMethod receiver.type name arguments.length
    let typed ← exprs ((← get).store.function f).params.tail arguments
    return .methodCall p receiver name typed f (← callType f)
  | .unknown _ label => throw (.misuse (.unhandledExpression label))

/-- Arguments for parameters of the given types; an argument that does not fit is to blame
itself. -/
def exprs : List Ty → List Expr → Check (List TypedExpr)
  | _, [] => return []
  | params, e :: es => do
    let typed ← expr e
    Attempt.locate e.position (Attempt.ofExcept ((params.headD .any).requireAssignable typed.type))
    return typed :: (← exprs params.tail es)

end

def condition (e : Expr) : Check TypedExpr := do
  let typed ← expr e
  if typed.type = .boolean then return typed
  else Attempt.fail (.conditionType typed.type.name)

/-! ## Statements -/

/-- A declaration needs a type or an initial value; without the one it has the type of the
other. -/
def binding (b : Binding) : Check TypedBinding := do
  let annotated ← ask fun s _ => s.namedType b.type
  match b.value, annotated with
  | some value, annotated =>
    let typed ← expr value
    let type := annotated.getD typed.type
    Attempt.ofExcept (type.requireAssignable typed.type)
    return ⟨b.position, b.name, b.type, some typed, ← define b.name type none⟩
  | none, some type => return ⟨b.position, b.name, b.type, none, ← define b.name type none⟩
  | none, none => Attempt.fail (.missingTypeInfo b.name)

def isTarget : Expr → Bool
  | .name .. | .member .. => true
  | _ => false

def assignment (p : Position) (target value : Expr) : Check TypedStmt := do
  if isTarget target then
    let target ← expr target
    let value ← expr value
    Attempt.ofExcept (target.type.requireAssignable value.type)
    return .assign p target value
  else Attempt.fail .untargetable

/-- The first value returned decides the return type of a method that declares none. -/
def returned (p : Position) (value : Expr) : Check TypedStmt := do
  match (← get).own with
  | none => Attempt.fail .returnOutsideMethod
  | some f =>
    let value ← expr value
    match ((← get).store.function f).returns with
    | none => modify fun a => { a with store := a.store.setReturns f value.type }
    | some type => Attempt.ofExcept (type.requireAssignable value.type)
    return .ret p value

def requireBody (opener : Keyword) (body : List Stmt) : Check Unit :=
  if body.isEmpty then Attempt.fail (.emptyBody opener) else pure ()

mutual

def stmt : Stmt → Check TypedStmt
  | .expression p value => Attempt.locate p do return .expression p (← expr value)
  | .declare b => Attempt.locate b.position do return .declare (← binding b)
  | .assign p target value => Attempt.locate p (assignment p target value)
  | .conditional p e thenBody elseBody => Attempt.locate p do
    let typed ← condition e
    requireBody .IF thenBody
    let thenBody ← inScope (stmts thenBody)
    let elseBody ← inScope (stmts elseBody)
    return .conditional p typed thenBody elseBody
  | .forLoop p name iterable body => Attempt.locate p do
    let iterable ← expr iterable
    Attempt.ofExcept (Ty.iterable.requireAssignable iterable.type)
    requireBody .FOR body
    let (slot, body) ← inScope do
      let slot ← define name .integer none
      return (slot, ← stmts body)
    return .forLoop p name iterable slot body
  | .whileLoop p e body => Attempt.locate p do
    let typed ← condition e
    return .whileLoop p typed (← inScope (stmts body))
  | .ret p value => Attempt.locate p (returned p value)
  | .unknown _ label => throw (.misuse (.unhandledStatement label))

def stmts : List Stmt → Check (List TypedStmt)
  | [] => return []
  | s :: rest => return (← stmt s) :: (← stmts rest)

end

/-! ## Programs -/

def field (b : Binding) : Check TypedBinding := Attempt.locate b.position (binding b)

/-- The variables of parameters. -/
def defineParams : List Param → List Ty → Check (List SlotId)
  | p :: ps, type :: types => return (← define p.name type none) :: (← defineParams ps types)
  | _, _ => return []

/-- The function of a method is known before its body is checked, so the body can call it. A method
that never returns a value returns nil. -/
def method (m : Method) : Check TypedMethod := do
  let (types, returns) ← Attempt.locate m.position (ask fun s _ => do
    return (← s.paramTypes m.params, ← s.namedType m.returnType))
  let f ← update fun s scope => s.defineFunction scope ⟨m.name, types, returns, .absent⟩
  note (.checkingMethod m.name types.length)
  let outer := (← get).own
  modify fun a => { a with own := some f }
  let (slots, body) ← Attempt.ensuring
    (inScope do
      let slots ← defineParams m.params types
      return (slots, ← stmts m.body))
    (modify fun a => { a with own := outer })
  if ((← get).store.function f).returns.isNone then
    modify fun a => { a with store := a.store.setReturns f .nil }
  return ⟨m.position, m.name, m.params, m.returnType, f, slots, body⟩

/-- A program begins at its method `main` without parameters, which gives an integer. -/
def entryPoint : Check Unit := do
  let a ← get
  match a.store.findFunction? a.scope "main" 0 with
  | none => Attempt.fail .noEntryPoint
  | some f =>
    let returns := (a.store.function f).returns
    if returns = some .integer then note .entryPointResolved
    else Attempt.fail (.entryPointType (returns.map Ty.name))

def program (p : Program) : Check TypedProgram := do
  let fields ← p.fields.mapM field
  let methods ← p.methods.mapM method
  entryPoint
  return ⟨fields, methods⟩

end Check

/-- The analysis at the start of a program: a scope inside `parent` that knows the built-in
functions. -/
def Analysis.start (s : Store) (parent : Option FrameId) : Analysis :=
  let (scope, store) := s.createRoot parent .absent
  ⟨store, scope, [], none⟩

end BlockScript
