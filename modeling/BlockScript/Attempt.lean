import BlockScript.Diagnostic

/-!
# Attempts

Computations on a state that may fail and keep the state when they do. Analysis and execution are
attempts, and what they have changed before a failure stays changed.
-/

namespace BlockScript

/-- A computation on states `σ` that gives an `α` or a failure, and the last state in both cases. -/
abbrev Attempt (σ α : Type) := EStateM Failure σ α

namespace Attempt

variable {σ α : Type}

def fail (cause : Cause) : Attempt σ α := throw (.of cause)

/-- What has no effect on the state. -/
def ofExcept {ε : Type} [Failing ε] : Except ε α → Attempt σ α
  | .ok a => pure a
  | .error e => throw (Failing.failure e)

/-- Runs `x` and then `after`, whether or not `x` has failed. Where `after` fails, its failure takes
the place of what `x` ended with. -/
def ensuring (x : Attempt σ α) (after : Attempt σ Unit) : Attempt σ α := fun s =>
  match x s with
  | .ok a t => (do after; return a : Attempt σ α) t
  | .error e t => (do after; throw e : Attempt σ α) t

/-- Gives a failure the place `p`, unless it has one. -/
def locate (p : Position) (x : Attempt σ α) : Attempt σ α := fun s =>
  match x s with
  | .ok a t => .ok a t
  | .error e t => .error (e.locate p) t

end Attempt

end BlockScript
