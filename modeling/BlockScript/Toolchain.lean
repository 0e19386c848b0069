import BlockScript.Execution.Run
import BlockScript.Syntax.Grammar
import BlockScript.Syntax.Printer
import BlockScript.Typing.Check

/-!
# The toolchain

What can be done with a whole program: parse it, print it, check it, run it.
-/

namespace BlockScript

/-- The first statement of a text; what follows it is tokenized but not parsed. -/
def Stmt.parse (source : String) : Except Diagnostic Stmt := do
  return (← Stmt.ofTokens (← Token.tokenize source)).1

/-- The first expression of a text; what follows it is tokenized but not parsed. -/
def Expr.parse (source : String) : Except Diagnostic Expr := do
  return (← Expr.ofTokens (← Token.tokenize source)).1

namespace Program

/-- Analyses a program in a new scope inside `parent`. -/
def check (p : Program) (s : Store) (parent : Option FrameId) :
    EStateM.Result Failure Analysis TypedProgram :=
  (Check.program p).run (.start s parent)

/-- Runs a program in a new scope inside `parent`. -/
def run (p : Program) (fuel : Nat) (s : Store) (parent : Option FrameId) :
    EStateM.Result Failure Machine Value :=
  (Run.program fuel p).run (.start s parent)

end Program

/-- Calls a function from outside of any program. -/
def FunctionId.call (f : FunctionId) (fuel : Nat) (args : List Value) (s : Store) :
    EStateM.Result Failure Machine Value :=
  (Run.invoke fuel f args).run (.start s none)

/-- The last state of an attempt, whether or not it failed. -/
def Attempt.state {σ α : Type} : EStateM.Result Failure σ α → σ
  | .ok _ s => s
  | .error _ s => s

/-- What an attempt gave, without the state. -/
def Attempt.result {σ α : Type} : EStateM.Result Failure σ α → Except Failure α
  | .ok a _ => .ok a
  | .error e _ => .error e

end BlockScript
