import BlockScript.Attempt
import BlockScript.Store.Basic

/-!
# Embedding

What a host adds around a program: types with fields and methods, and a scope of variables and
functions that the program's own scope lies in. A host describes all this; `Host.build` makes it.
-/

namespace BlockScript

/-- A type by the name under which the catalog has it, or the type itself. -/
inductive TypeRef
  | named (name : String)
  | known (type : Ty)

/-- A value as a host describes it. A character is given by a text that must hold exactly one, and
an object by its type and its fields, of which some may be empty. -/
inductive ValueSpec
  | known (value : Value)
  | character (text : String)
  | object (type : TypeRef) (fields : List (String × Option ValueSpec))

/-- What a native function does: give back an argument, a constant or the texts of its arguments, or
fail. -/
inductive NativeSpec
  | absent
  | first
  | last
  | constant (value : ValueSpec)
  | concat
  | fault (text : String)

structure FunctionSpec where
  name : String
  params : List TypeRef
  returns : Option TypeRef
  body : NativeSpec

structure VariableSpec where
  name : String
  type : TypeRef
  value : Option ValueSpec

structure TypeSpec where
  name : String
  kind : String
  fields : List (String × TypeRef)
  methods : List FunctionSpec

structure Host where
  types : List TypeSpec
  globals : List VariableSpec
  functions : List FunctionSpec

/-- Changes of a store that may fail. -/
abbrev Build (α : Type) := Attempt Store α

namespace Build

variable {α : Type}

def ofMisuse : Except Misuse α → Build α
  | .ok a => pure a
  | .error misuse => throw (.misuse misuse)

/-- The type that a reference means. -/
def type : TypeRef → Build Ty
  | .named name => do Attempt.ofExcept ((← get).lookupType name)
  | .known type => return type

def types (refs : List TypeRef) : Build (List Ty) := refs.mapM type

/-- The type of an object's field: as its type declares it, else that of the value, else any. -/
def fieldType (owner : Ty) (name : String) (value : Option Value) : Build Ty := do
  let s ← get
  match (s.membersOf owner).fields.find? name, value with
  | some slot, _ => return (s.slot slot).type
  | none, some value => return value.type
  | none, none => return .any

def defineField (owner : Ty) (fields : FrameId) (name : String) (value : Option Value) :
    Build Unit := do
  let type ← fieldType owner name value
  modify fun s => (s.defineSlot fields ⟨name, type, value⟩).2

mutual

/-- Makes a described value. -/
def value : ValueSpec → Build Value
  | .known v => return v
  | .character text => ofMisuse (Value.ofCharacterText text)
  | .object ref fields => do
    let owner ← type ref
    let frame ← modifyGet fun s => s.createFrame none
    fieldValues owner frame fields
    return .object owner frame

/-- Fills in the fields of an object. -/
def fieldValues (owner : Ty) (frame : FrameId) : List (String × Option ValueSpec) → Build Unit
  | [] => return ()
  | (name, none) :: rest => do
    defineField owner frame name none
    fieldValues owner frame rest
  | (name, some v) :: rest => do
    defineField owner frame name (some (← value v))
    fieldValues owner frame rest

end

def optionalValue : Option ValueSpec → Build (Option Value)
  | some v => return some (← value v)
  | none => return none

def body : NativeSpec → Build Body
  | .absent => return .absent
  | .first => return .native fun args => .ok (args.headD .nil)
  | .last => return .native fun args => .ok (args.getLastD .nil)
  | .constant v => do
    let v ← value v
    return .native fun _ => .ok v
  | .concat => return .native fun args => .ok (.string ("|".intercalate (args.map Value.text)))
  | .fault text => return .native fun _ => .error (.cause (.native text))

def function (spec : FunctionSpec) : Build Function := do
  let params ← types spec.params
  let returns ← match spec.returns with
    | some ref => pure (some (← type ref))
    | none => pure none
  return ⟨spec.name, params, returns, ← body spec.body⟩

/-- Gives a type a described method; one that declares no return type gives anything. -/
def method (owner : Ty) (spec : FunctionSpec) : Build FunctionId := do
  let fn ← function spec
  modifyGet fun s => s.defineMethod owner fn.name fn.params (fn.returns.getD .any) fn.body

/-- A new type in the catalog, still without members. -/
def newType (spec : TypeSpec) : Build Ty := do
  let type ← modifyGet fun s => s.createType spec.name spec.kind
  set (← ofMisuse ((← get).register type))
  return type

def addMembers (owner : Ty) (spec : TypeSpec) : Build Unit := do
  spec.fields.forM fun (name, ref) => do
    let type ← type ref
    modify fun s => s.addField owner name type
  spec.methods.forM fun m => do
    let _ ← method owner m

def defineVariable (scope : FrameId) (spec : VariableSpec) : Build SlotId := do
  let type ← type spec.type
  let value ← optionalValue spec.value
  modifyGet fun s => s.defineSlot scope ⟨spec.name, type, value⟩

end Build

/-- Makes what a host describes and gives the scope for programs to lie in. All types are known
before any of them gets members. -/
def Host.build (host : Host) : Build FrameId := do
  let types ← host.types.mapM Build.newType
  (types.zip host.types).forM fun (type, spec) => Build.addMembers type spec
  let scope ← modifyGet fun s => s.createFrame none
  host.globals.forM fun spec => do
    let _ ← Build.defineVariable scope spec
  host.functions.forM fun spec => do
    let fn ← Build.function spec
    modify fun s => (s.defineFunction scope fn).2
  return scope

end BlockScript
