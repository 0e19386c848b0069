import BlockScript.Proofs.Syntax.Normal
import BlockScript.Store.Basic

/-!
# Stores with normal methods

A store in which the definition of every method is in its normal form. Whatever is asked of a store
but the definition of a method is then answered as before.
-/

namespace BlockScript

def Body.normal : Body → Body
  | .method definition closure => .method definition.normal closure
  | body => body

def Function.normal (f : Function) : Function := { f with body := f.body.normal }

/-- The store with the definitions of its methods in their normal form. -/
def Store.normal (s : Store) : Store := { s with functions := s.functions.map Function.normal }

namespace Store

@[simp] theorem function_normal (s : Store) (f : FunctionId) :
    s.normal.function f = (s.function f).normal := by
  simp only [function, normal, Array.getD_eq_getD_getElem?, Array.getElem?_map]
  cases s.functions[f.index]? <;> rfl

theorem chainFrom_normal (s : Store) (bound : Nat) (f : FrameId) :
    s.normal.chainFrom bound f = s.chainFrom bound f := by
  induction bound generalizing f with
  | zero => rfl
  | succ bound ih =>
    simp only [chainFrom, ih]
    rfl

@[simp] theorem findSlot?_normal (s : Store) (f : FrameId) (name : String) :
    s.normal.findSlot? f name = s.findSlot? f name := by
  simp only [findSlot?, chain, chainFrom_normal]
  rfl

@[simp] theorem findFunction?_normal (s : Store) (f : FrameId) (name : String) (arity : Nat) :
    s.normal.findFunction? f name arity = s.findFunction? f name arity := by
  simp only [findFunction?, chain, chainFrom_normal]
  rfl

theorem lookupSlot_normal (s : Store) (f : FrameId) (name : String) :
    s.normal.lookupSlot f name = s.lookupSlot f name := by
  simp only [lookupSlot, findSlot?_normal]

theorem lookupFunction_normal (s : Store) (f : FrameId) (name : String) (arity : Nat) :
    s.normal.lookupFunction f name arity = s.lookupFunction f name arity := by
  simp only [lookupFunction, findFunction?_normal]

theorem paramTypes_normal (s : Store) (ps : List Param) :
    s.normal.paramTypes ps = s.paramTypes ps := by
  induction ps with
  | nil => rfl
  | cons p ps ih =>
    simp only [paramTypes, ih]
    rfl

/-- The places of parameters do not matter to their types. -/
theorem paramTypes_map (s : Store) (ps : List Param) :
    s.paramTypes (ps.map Param.normal) = s.paramTypes ps := by
  induction ps with
  | nil => rfl
  | cons p ps ih =>
    simp only [List.map_cons, paramTypes, ih]
    rfl

theorem createFunction_normal (s : Store) (fn : Function) :
    s.normal.createFunction fn.normal =
      ((s.createFunction fn).1, (s.createFunction fn).2.normal) := by
  simp [createFunction, normal]

theorem bindFunction_normal (s : Store) (f : FrameId) (id : FunctionId) :
    s.normal.bindFunction f id = (s.bindFunction f id).normal := by
  simp only [bindFunction, function_normal]
  rfl

theorem defineFunction_normal (s : Store) (f : FrameId) (fn : Function) :
    s.normal.defineFunction f fn.normal =
      ((s.defineFunction f fn).1, (s.defineFunction f fn).2.normal) := by
  simp only [defineFunction, createFunction_normal, bindFunction_normal]

end Store

end BlockScript
