import BlockScript.Attempt
import BlockScript.Event
import BlockScript.Store.Basic

/-!
# Passes

Analysis and execution walk over a program in the same way: each has a store, stands in a scope and
keeps a log. What only one of them keeps is the parameter of `Pass`. A scope that is entered is left
again towards the one around it, also after a failure.
-/

namespace BlockScript

/-- The state of a pass over a program. The log has its newest event first. -/
structure Pass (ρ : Type) where
  store : Store
  scope : FrameId
  log : List Event
  own : ρ

namespace Pass

variable {ρ α : Type}

def note (event : Event) : Attempt (Pass ρ) Unit := modify fun a => { a with log := event :: a.log }

/-- Asks the store, in view of the current scope. -/
def ask (question : Store → FrameId → Except Cause α) : Attempt (Pass ρ) α := do
  let a ← get
  Attempt.ofExcept (question a.store a.scope)

/-- Changes the store, in view of the current scope. -/
def update (change : Store → FrameId → α × Store) : Attempt (Pass ρ) α :=
  modifyGet fun a =>
    let (x, store) := change a.store a.scope
    (x, { a with store })

/-- A new variable of the current scope. -/
def define (name : String) (type : Ty) (value : Option Value) : Attempt (Pass ρ) SlotId :=
  update fun s f => s.defineSlot f ⟨name, type, value⟩

/-- Moves into a new frame inside `parent`. -/
def enterFrame (parent : FrameId) (a : Pass ρ) : Pass ρ :=
  let (scope, store) := a.store.createFrame (some parent)
  { a with store, scope }

/-- Moves into the frame around the current one. -/
def leaveFrame : Attempt (Pass ρ) Unit := do
  let a ← get
  match (a.store.frame a.scope).parent with
  | some parent => set { a with scope := parent }
  | none => throw (.misuse .noEnclosingFrame)

/-- Runs `x` in a new scope inside the current one, and then leaves the scope it has come to. -/
def inScope (x : Attempt (Pass ρ) α) : Attempt (Pass ρ) α := do
  modify fun a => a.enterFrame a.scope
  Attempt.ensuring x leaveFrame

end Pass

end BlockScript
