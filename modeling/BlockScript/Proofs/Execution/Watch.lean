import BlockScript.Proofs.Pass.Evolution
import BlockScript.Execution.Run
import BlockScript.Typing.Tree

/-!
# Watched runs

A run of a typed program that keeps a trace of what is to be seen in it: values of expressions,
what is found under names, and what becomes of variables. Each observation is made beside what the
typed tree says there. For the rest a watched run does what a run does.
-/

namespace BlockScript

/-- What is to be seen at one point of a run. -/
inductive Observation
  | evaluated (e : TypedExpr) (value : Value)
  /-- A name that stands for the variable `slot` was looked up, and `found` was found. -/
  | resolved (slot : SlotId) (found : Option SlotId)
  /-- The name in a call of the function `f` was looked up, and `found` was found, which had the
  given body. -/
  | called (name : String) (arity : Nat) (f : FunctionId) (found : Option (FunctionId × Body))
  /-- The declaration of `slot` made the variable `made`. -/
  | declared (slot made : SlotId) (value : Value)
  | assigned (target : TypedExpr) (value : Value)

/-- A machine and what has been seen of it, the latest first. -/
structure Watched where
  machine : Machine
  trace : List Observation

abbrev Watch (α : Type) := Attempt Watched α

namespace Watch

variable {α : Type}

abbrev Call := FunctionId → List Value → Watch Value

/-- What happens unseen. -/
def lift (x : Run α) : Watch α := fun w =>
  match x w.machine with
  | .ok a m => .ok a { w with machine := m }
  | .error e m => .error e { w with machine := m }

def tell (o : Observation) : Watch Unit := modify fun w => { w with trace := o :: w.trace }

/-- Runs `x` in an altered state and goes back to where it began. -/
def within (enter : Machine → Machine) (x : Watch α) : Watch α := fun w =>
  match x { w with machine := enter w.machine } with
  | .ok a v => .ok a { v with machine := w.machine.leave v.machine }
  | .error e v => .error e { v with machine := w.machine.leave v.machine }

def inScope (x : Watch α) : Watch α := within (fun a => a.enterFrame a.scope) x

/-- Sees the value of an expression. -/
def seen (e : TypedExpr) (x : Watch Value) : Watch Value := do
  let value ← x
  tell (.evaluated e value)
  return value

/-- Looks up a name that stands for the variable `slot`. -/
def resolve (id : String) (slot : SlotId) : Watch SlotId := do
  let m ← lift get
  tell (.resolved slot (m.store.findSlot? m.scope id))
  lift (Pass.ask fun s f => s.lookupSlot f id)

/-- Looks up the name in a call of the function `f`. -/
def resolveFunction (name : String) (arity : Nat) (f : FunctionId) : Watch FunctionId := do
  let m ← lift get
  tell (.called name arity f
    ((m.store.findFunction? m.scope name arity).map fun g => (g, (m.store.function g).body)))
  lift (Pass.ask fun s scope => s.lookupFunction scope name arity)

/-- Makes a variable by the declaration of `slot`. -/
def make (name : String) (slot : SlotId) (type : Ty) (value : Value) : Watch Unit := do
  let made ← lift (Pass.define name type (some value))
  tell (.declared slot made value)

/-! ## Expressions -/

mutual

def expr (call : Call) : TypedExpr → Watch Value
  | .literal p value t => seen (.literal p value t) (lift (Run.literal value))
  | .group p inner t => seen (.group p inner t) (expr call inner)
  | .binary p op left right t => seen (.binary p op left right t)
    (match Run.decisive? op with
    | some decisive => do
      let a ← lift (Run.logical op (← expr call left))
      if a = decisive then return .boolean a
      else return .boolean (← lift (Run.logical op (← expr call right)))
    | none => do
      let a ← expr call left
      let b ← expr call right
      lift (Attempt.ofExcept (op.apply a b)))
  | .name p id slot t => seen (.name p id slot t) do lift (Run.read (← resolve id slot))
  | .member p receiver id slot t => seen (.member p receiver id slot t) do
    lift (Run.read (← lift (Run.field id (← expr call receiver))))
  | .call p id arguments f t => seen (.call p id arguments f t) do
    let args ← exprs call arguments
    let g ← resolveFunction id args.length f
    call g args
  | .methodCall p receiver id arguments f t => seen (.methodCall p receiver id arguments f t) do
    let receiver ← expr call receiver
    let args ← exprs call arguments
    let g ← lift (Run.lookupMethod receiver id args.length)
    call g (receiver :: args)

def exprs (call : Call) : List TypedExpr → Watch (List Value)
  | [] => return []
  | e :: es => return (← expr call e) :: (← exprs call es)

end

/-! ## Statements -/

def condition (call : Call) (e : TypedExpr) : Watch Bool := do
  match ← expr call e with
  | .boolean b => return b
  | value => lift (Attempt.fail (.conditionKind value.kind))

def initial (call : Call) (b : TypedBinding) : Watch (Value × Ty) := do
  let value ← match b.value with
    | some e => expr call e
    | none => pure .nil
  return (value, ← lift (Run.declaredType b.declared value))

def declare (call : Call) (b : TypedBinding) : Watch Unit := do
  let (value, type) ← initial call b
  make b.name b.slot type value

def target (call : Call) : TypedExpr → Watch SlotId
  | .name _ id slot _ => resolve id slot
  | .member _ receiver id _ _ => do lift (Run.field id (← expr call receiver))
  | _ => lift (Attempt.fail .notATarget)

def assign (call : Call) (receiver value : TypedExpr) : Watch Unit := do
  let slot ← target call receiver
  let value ← expr call value
  tell (.assigned receiver value)
  lift (modify fun a => { a with store := a.store.assign slot value })

mutual

def stmt (call : Call) (fuel : Nat) : TypedStmt → Watch Completion
  | .expression p value => Attempt.locate p do
    let _ ← expr call value
    return .next
  | .declare b => Attempt.locate b.position do
    declare call b
    return .next
  | .assign p receiver value => Attempt.locate p do
    assign call receiver value
    return .next
  | .conditional p e thenBody elseBody => Attempt.locate p do
    if ← condition call e then inScope (stmts call fuel thenBody)
    else inScope (stmts call fuel elseBody)
  | .forLoop p name iterable slot body => Attempt.locate p do
    match ← expr call iterable with
    | .range start stop =>
      Run.forLoop
        (fun i => inScope do
          make name slot .integer (.integer i)
          stmts call fuel body)
        (stop - start).toNat start
    | value => lift (Attempt.fail (.notIterable value.kind))
  | .whileLoop p e body => Attempt.locate p
    (Run.whileLoop (condition call e) (inScope (stmts call fuel body)) fuel)
  | .ret p value => Attempt.locate p do return .returned (← expr call value)

def stmts (call : Call) (fuel : Nat) : List TypedStmt → Watch Completion
  | [] => return .next
  | s :: rest => do
    match ← stmt call fuel s with
    | .next => stmts call fuel rest
    | .returned value => return .returned value

end

/-! ## Calls -/

def defineParams : List Param → List SlotId → List Ty → List Value → Watch Unit
  | p :: ps, slot :: slots, type :: types, arg :: args => do
    make p.name slot type arg
    defineParams ps slots types args
  | _, _, _, _ => return ()

def method (body : List TypedStmt → Watch Completion) (m : TypedMethod) (closure : FrameId)
    (types : List Ty) (args : List Value) : Watch Value := do
  let completion ← within (Run.enterCall closure) do
    defineParams m.params m.slots types args
    body m.body
  match completion with
  | .next => return .nil
  | .returned value => return value

/-- The methods of a program, by their functions in a run. -/
abbrev Code := FunctionId → Option TypedMethod

/-- A call of a method of the program is watched, and any other goes unseen. -/
def dispatch (code : Code) (body : List TypedStmt → Watch Completion) (unseen : Run.Call) : Call :=
  fun f args => do
    let a ← lift get
    let fn := a.store.function f
    match code f, fn.body with
    | some m, .method _ closure => do
      lift (Pass.note (.calling m.name args.length))
      if Run.maxCalls ≤ a.depth then lift (Attempt.fail (.stackOverflow Run.maxCalls))
      else method body m closure fn.params args
    | _, _ => lift (unseen f args)

def invoke (code : Code) : (fuel : Nat) → Call
  | 0 => dispatch code (fun _ => throw .outOfFuel) (Run.invoke 0)
  | fuel + 1 => dispatch code (stmts (invoke code fuel) fuel) (Run.invoke (fuel + 1))

/-! ## Programs -/

/-- The methods of a program become functions in order, and `first` is the number of the first. -/
def Code.ofMethods (methods : List TypedMethod) (first : Nat) : Code :=
  fun f => if first ≤ f.index then methods[f.index - first]? else none

def field (call : Call) (b : TypedBinding) : Watch Unit := do
  let (value, type) ← Attempt.locate b.position (initial call b)
  make b.name b.slot type value

/-- While fields are initialised, the program has no functions yet. -/
def fields (fuel : Nat) (p : TypedProgram) : Watch Unit :=
  p.fields.forM (field (invoke (fun _ => none) fuel))

def program (fuel : Nat) (p : TypedProgram) : Watch Value := do
  fields fuel p
  let first := (← lift get).store.functions.size
  p.methods.forM fun m => lift (Run.defineMethod m.erase)
  let f ← lift (Pass.ask fun s scope => s.lookupFunction scope "main" 0)
  lift (Pass.note .entryPointInvoked)
  invoke (Code.ofMethods p.methods first) fuel f []

/-- What a run would have given without being watched. -/
def unwatched : EStateM.Result Failure Watched α → EStateM.Result Failure Machine α
  | .ok a w => .ok a w.machine
  | .error e w => .error e w.machine

end Watch

namespace TypedProgram

/-- Runs a typed program in a new scope inside `parent`, watched. -/
def watch (p : TypedProgram) (fuel : Nat) (s : Store) (parent : Option FrameId) :
    EStateM.Result Failure Watched Value :=
  (Watch.program fuel p).run ⟨.start s parent, []⟩

/-- Where a run is once the fields are initialised, or where it has failed while they were. -/
def initialised (p : TypedProgram) (fuel : Nat) (s : Store) (parent : Option FrameId) : Watched :=
  match (Watch.fields fuel p).run ⟨.start s parent, []⟩ with
  | .ok _ w => w
  | .error _ w => w

/-- What is to be seen in a run, whether or not it fails. -/
def trace (p : TypedProgram) (fuel : Nat) (s : Store) (parent : Option FrameId) :
    List Observation :=
  match p.watch fuel s parent with
  | .ok _ w => w.trace
  | .error _ w => w.trace

end TypedProgram

end BlockScript
