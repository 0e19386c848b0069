import BlockScript.Execution.Operators
import BlockScript.Pass
import BlockScript.Store.Initial

/-!
# Execution

Programs are run on their trees. Calls nest at most `maxCalls` deep, so without WHILE every run
ends; fuel bounds the calls and the rounds of each WHILE, and a run that uses it up fails in a way
of its own. More fuel never changes a result.

A run has all the stack that it needs. That of a host may be used up before `maxCalls` calls are,
by trees that are nested deep enough; the failure of a call for that reason, "stack overflow in" and
the name of the method, is left out. So is whatever a host's function does to the store (see
`Body.native`).
-/

namespace BlockScript

/-- The state of a run; of its own it counts the methods that are running. -/
abbrev Machine := Pass Int

/-- How many methods are running. -/
def Pass.depth (m : Machine) : Int := m.own

abbrev Run (α : Type) := Attempt Machine α

/-- How a statement ends: control goes on after it, or the method returns a value. -/
inductive Completion
  | next
  | returned (value : Value)

namespace Run

open Pass

/-- The greatest number of methods that run at once. -/
def maxCalls : Nat := 500

/-- What a call of a function with these arguments does. -/
abbrev Call := FunctionId → List Value → Run Value

/-! ## Expressions -/

def literal : Literal → Run Value
  | .nil => return .nil
  | .boolean b => return .boolean b
  | .character text =>
    match Value.ofCharacterText text with
    | .ok value => return value
    | .error misuse => throw (.misuse misuse)
  | .string s => return .string s
  | .integer n _ => return .integer n
  | .decimal d _ => return .decimal d

/-- The slot of an object's field. -/
def field (name : String) : Value → Run SlotId
  | .object type fields => ask fun s _ =>
    match (s.frame fields).slots.find? name with
    | some slot => .ok slot
    | none => .error (.fieldNotHeld type.name name)
  | value => Attempt.fail (.fieldNotHeld value.kind name)

/-- The value in a slot, nil while it is empty. -/
def read (slot : SlotId) : Run Value := do
  return ((← get).store.slot slot).value.getD .nil

def lookupMethod (receiver : Value) (name : String) (arguments : Nat) : Run FunctionId :=
  ask fun s _ =>
    match s.findMethod? receiver.type name arguments with
    | some f => .ok f
    | none => .error (.methodNotHeld receiver.type.name name arguments)

def logical (op : Operator) : Value → Run Bool
  | .boolean b => return b
  | value => Attempt.fail (.logicalOperand op.spelling value.kind)

/-- The value that decides a logical operation alone, if it stands on the left. -/
def decisive? : Operator → Option Bool
  | .and => some false
  | .or => some true
  | _ => none

mutual

def expr (call : Call) : Expr → Run Value
  | .literal _ value => literal value
  | .group _ inner => expr call inner
  | .binary _ op left right =>
    match decisive? op with
    | some decisive => do
      let a ← logical op (← expr call left)
      if a = decisive then return .boolean a
      else return .boolean (← logical op (← expr call right))
    | none => do
      let a ← expr call left
      let b ← expr call right
      Attempt.ofExcept (op.apply a b)
  | .name _ id => do read (← ask fun s f => s.lookupSlot f id)
  | .member _ receiver name => do read (← field name (← expr call receiver))
  | .call _ name arguments => do
    let args ← exprs call arguments
    let f ← ask fun s scope => s.lookupFunction scope name args.length
    call f args
  | .methodCall _ receiver name arguments => do
    let receiver ← expr call receiver
    let args ← exprs call arguments
    let f ← lookupMethod receiver name args.length
    call f (receiver :: args)
  | .unknown _ label => Attempt.fail (.unsupportedExpression label)

def exprs (call : Call) : List Expr → Run (List Value)
  | [] => return []
  | e :: es => return (← expr call e) :: (← exprs call es)

end

/-! ## Statements -/

def condition (call : Call) (e : Expr) : Run Bool := do
  match ← expr call e with
  | .boolean b => return b
  | value => Attempt.fail (.conditionKind value.kind)

/-- The type of a declared variable, that of its value where no type is named. -/
def declaredType (name : Option String) (value : Value) : Run Ty := do
  return (← ask fun s _ => s.namedType name).getD value.type

/-- The initial value and the type of a declaration. -/
def initial (call : Call) (b : Binding) : Run (Value × Ty) := do
  let value ← match b.value with
    | some e => expr call e
    | none => pure .nil
  return (value, ← declaredType b.type value)

def declare (call : Call) (b : Binding) : Run Unit := do
  let (value, type) ← initial call b
  let _ ← define b.name type (some value)

/-- The slot that an assignment stores into. -/
def target (call : Call) : Expr → Run SlotId
  | .name _ id => ask fun s f => s.lookupSlot f id
  | .member _ receiver name => do field name (← expr call receiver)
  | _ => Attempt.fail .notATarget

/-- The slot is found before the value is worked out. -/
def assign (call : Call) (receiver value : Expr) : Run Unit := do
  let slot ← target call receiver
  let value ← expr call value
  modify fun a => { a with store := a.store.assign slot value }

section

variable {σ : Type}

/-- Runs a body for `count` integers from `i` on, until one returns. -/
def forLoop (body : Int → Attempt σ Completion) : (count : Nat) → Int → Attempt σ Completion
  | 0, _ => return .next
  | count + 1, i => do
    match ← body i with
    | .next => forLoop body count (i + 1)
    | .returned value => return .returned value

/-- Runs a body as long as a test holds, until one returns. -/
def whileLoop (test : Attempt σ Bool) (body : Attempt σ Completion) :
    (fuel : Nat) → Attempt σ Completion
  | 0 => throw .outOfFuel
  | fuel + 1 => do
    if ← test then
      match ← body with
      | .next => whileLoop test body fuel
      | .returned value => return .returned value
    else return .next

end

mutual

def stmt (call : Call) (fuel : Nat) : Stmt → Run Completion
  | .expression p value => Attempt.locate p do
    let _ ← expr call value
    return .next
  | .declare b => Attempt.locate b.position do
    declare call b
    return .next
  | .assign p receiver value => Attempt.locate p do
    assign call receiver value
    return .next
  | .conditional p e thenBody elseBody => Attempt.locate p do
    if ← condition call e then inScope (stmts call fuel thenBody)
    else inScope (stmts call fuel elseBody)
  | .forLoop p name iterable body => Attempt.locate p do
    match ← expr call iterable with
    | .range start stop =>
      forLoop
        (fun i => inScope do
          let _ ← define name .integer (some (.integer i))
          stmts call fuel body)
        (stop - start).toNat start
    | value => Attempt.fail (.notIterable value.kind)
  | .whileLoop p e body => Attempt.locate p
    (whileLoop (condition call e) (inScope (stmts call fuel body)) fuel)
  | .ret p value => Attempt.locate p do return .returned (← expr call value)
  | .unknown p label => Attempt.locate p (Attempt.fail (.unsupportedStatement label))

/-- Statements in order, until one returns. -/
def stmts (call : Call) (fuel : Nat) : List Stmt → Run Completion
  | [] => return .next
  | s :: rest => do
    match ← stmt call fuel s with
    | .next => stmts call fuel rest
    | .returned value => return .returned value

end

/-! ## Calls -/

/-- The variables of parameters, with the arguments as their values. -/
def defineParams : List Param → List Ty → List Value → Run Unit
  | p :: ps, type :: types, arg :: args => do
    let _ ← define p.name type (some arg)
    defineParams ps types args
  | _, _, _ => return ()

/-- Begins a call of a method, in a new frame inside `closure`. -/
def enterCall (closure : FrameId) (a : Machine) : Machine :=
  let a := a.enterFrame closure
  { a with own := a.own + 1 }

/-- Ends a call and goes back to the scope of the caller. -/
def leaveCall (caller : FrameId) (a : Machine) : Machine :=
  { a with scope := caller, own := a.own - 1 }

/-- Runs `x` as what is done in a call. -/
def inCall {α : Type} (closure : FrameId) (x : Run α) : Run α := do
  let caller := (← get).scope
  modify (enterCall closure)
  Attempt.ensuring x (modify (leaveCall caller))

/-- Runs the body of a method in a new frame inside the one that the method was defined in. -/
def method (body : List Stmt → Run Completion) (m : Method) (closure : FrameId) (types : List Ty)
    (args : List Value) : Run Value := do
  let completion ← inCall closure do
    defineParams m.params types args
    body m.body
  match completion with
  | .next => return .nil
  | .returned value => return value

/-- What a call does, by the body of the function. A method is not entered while `maxCalls` are
running. -/
def dispatch (body : List Stmt → Run Completion) : Call := fun f args => do
  let a ← get
  let fn := a.store.function f
  match fn.body with
  | .absent => Attempt.fail (.noBody fn.name fn.arity)
  | .native run => Attempt.ofExcept (run args)
  | .print => do
    note (.printed (Native.argument args 0).text)
    return .nil
  | .method m closure => do
    note (.calling m.name args.length)
    if maxCalls ≤ a.depth then Attempt.fail (.stackOverflow maxCalls)
    else method body m closure fn.params args

def invoke : (fuel : Nat) → Call
  | 0 => dispatch fun _ => throw .outOfFuel
  | fuel + 1 => dispatch (stmts (invoke fuel) fuel)

/-! ## Programs -/

/-- Defines a method in the current scope, which its body will see. -/
def defineMethod (m : Method) : Run Unit := do
  let (types, returns) ← ask fun s _ => do
    return (← s.paramTypes m.params, ← s.typeOrAny m.returnType)
  let _ ← update fun s scope =>
    s.defineFunction scope ⟨m.name, types, some returns, .method m scope⟩

/-- Initialises the fields, defines the methods and calls `main`. -/
def program (fuel : Nat) (p : Program) : Run Value := do
  p.fields.forM fun b => do
    let (value, type) ← Attempt.locate b.position (initial (invoke fuel) b)
    let _ ← define b.name type (some value)
  p.methods.forM defineMethod
  let f ← ask fun s scope => s.lookupFunction scope "main" 0
  note .entryPointInvoked
  invoke fuel f []

end Run

/-- The machine at the start of a program: a scope inside `parent` that knows the built-in
functions. -/
def Machine.start (s : Store) (parent : Option FrameId) : Machine :=
  let (scope, store) := s.createRoot parent .print
  ⟨store, scope, [], 0⟩

end BlockScript
