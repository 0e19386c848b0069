import BlockScript.Store.Basic

/-!
# The initial store

The built-in types with their methods, and the functions that every program can call.
-/

namespace BlockScript.Store

/-- The signature of `print`; only an interpreter gives it a body. -/
def printFunction (body : Body) : Function := ⟨"print", [.any], some .nil, body⟩

/-- The built-in `range`, one function wherever it is known. -/
def rangeFunction : Function :=
  ⟨"range", [.integer, .integer], some .iterable, .native Native.range⟩

/-- The number of `range` in every store that grows from the initial one. -/
def rangeId : FunctionId := ⟨0⟩

/-- A store without types, in which `range` is the only function. -/
def bare : Store := ⟨#[], #[], #[rangeFunction], .empty, .empty, 0⟩

/-- Makes the built-in types known, each under its own name. -/
def withTypes (s : Store) : Store :=
  Ty.builtIn.foldl
    (fun s type =>
      { s with
        members := s.members.insert type ⟨type.name, .empty, .empty⟩
        catalog := s.catalog.insert type.name type })
    s

/-- The methods of the built-in types. -/
def builtInMethods : List (Ty × String × List Ty × Ty × (List Value → Except Breakdown Value)) := [
  (.string, "length", [], .integer, Native.stringLength),
  (.string, "charAt", [.integer], .character, Native.stringCharAt),
  (.string, "substring", [.integer], .string, Native.stringSubstring),
  (.string, "substring", [.integer, .integer], .string, Native.stringSubstring),
  (.integer, "abs", [], .integer, Native.integerAbs),
  (.decimal, "abs", [], .decimal, Native.decimalAbs)]

def withMethods (s : Store) : Store :=
  builtInMethods.foldl
    (fun s (type, name, params, returns, run) =>
      (s.defineMethod type name params returns (.native run)).2)
    s

/-- The store before any program or host has touched it. -/
def initial : Store := bare.withTypes.withMethods

/-- A new frame that knows `print`, with the given body, and `range`. -/
def createRoot (s : Store) (parent : Option FrameId) (printing : Body) : FrameId × Store :=
  let (f, s) := s.createFrame parent
  let (_, s) := s.defineFunction f (printFunction printing)
  (f, s.bindFunction f rangeId)

end BlockScript.Store
