import BlockScript.Toolchain

/-!
# Sessions

One analysis and one machine over the same parent scope, kept over a series of requests. A request
that fails leaves behind what it did before it failed.
-/

namespace BlockScript

structure Session where
  store : Store
  /-- The scope that the analysis stands in. -/
  typing : FrameId
  /-- The method whose body the analysis is in. -/
  checking : Option FunctionId
  /-- The scope that the machine stands in. -/
  running : FrameId
  /-- How many methods the machine counts as running. -/
  depth : Int

namespace Session

inductive Request
  | check (source : String)
  | run (source : String)
  | checkStmt (source : String)
  | typeOf (source : String)
  | execute (source : String)
  | evaluate (source : String)
  | enterScope
  | exitScope

inductive Answer
  | checked (program : TypedProgram)
  | value (value : Value)
  | type (type : Ty)
  | completion (completion : Completion)
  | done

/-- An answer or a failure, with the lines printed on the way. -/
structure Response where
  answer : Except Failure Answer
  output : List String

def start (s : Store) (parent : Option FrameId) : Session :=
  let analysis := Analysis.start s parent
  let machine := Machine.start analysis.store parent
  ⟨machine.store, analysis.scope, analysis.own, machine.scope, machine.own⟩

/-- Whether a request is for the machine and not for the analysis. -/
def Request.isExecution : Request → Bool
  | run _ | execute _ | evaluate _ => true
  | _ => false

variable {α : Type}

/-- What `source` denotes, as a step of a pass. -/
def parsed {σ : Type} (x : Except Diagnostic α) : Attempt σ α :=
  match x with
  | .ok a => pure a
  | .error d => throw (.diagnostic d)

def analyse (x : Check Answer) (session : Session) : Response × Session :=
  let last := x.run ⟨session.store, session.typing, [], session.checking⟩
  let state := Attempt.state last
  (⟨Attempt.result last, []⟩,
    { session with store := state.store, typing := state.scope, checking := state.own })

def execute (x : Run Answer) (session : Session) : Response × Session :=
  let last := x.run ⟨session.store, session.running, [], session.depth⟩
  let state := Attempt.state last
  (⟨Attempt.result last, Event.output state.log⟩,
    { session with store := state.store, running := state.scope, depth := state.own })

/-- Answers a request; `fuel` is for the machine. -/
def answer (fuel : Nat) : Request → Session → Response × Session
  | .check source => analyse do return .checked (← Check.program (← parsed (Program.parse source)))
  | .checkStmt source => analyse do
    let _ ← Check.stmt (← parsed (Stmt.parse source))
    return .done
  | .typeOf source => analyse do return .type (← Check.expr (← parsed (Expr.parse source))).type
  | .enterScope => analyse do
    modify fun a => a.enterFrame a.scope
    return .done
  | .exitScope => analyse do
    Pass.leaveFrame
    return .done
  | .run source => execute do
    return .value (← Run.program fuel (← parsed (Program.parse source)))
  | .execute source => execute do
    let s ← parsed (Stmt.parse source)
    return .completion (← Run.stmt (Run.invoke fuel) fuel s)
  | .evaluate source => execute do
    return .value (← Run.expr (Run.invoke fuel) (← parsed (Expr.parse source)))

end Session

end BlockScript
