/-!
# Events

What a log tells about the analysis and the run of a program.
-/

namespace BlockScript

inductive Event
  | checkingMethod (name : String) (arity : Nat)
  | entryPointResolved
  | entryPointInvoked
  | calling (name : String) (arity : Nat)
  | printed (text : String)
deriving DecidableEq, Repr

/-- The texts printed, in order, by a log whose newest event is first. -/
def Event.output (log : List Event) : List String :=
  log.reverse.filterMap fun
    | printed text => some text
    | _ => none

end BlockScript
