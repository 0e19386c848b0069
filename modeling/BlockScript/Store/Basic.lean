import BlockScript.Syntax.Basic
import BlockScript.Table
import BlockScript.Value.Natives

/-!
# The store

Everything that has an identity lives in a store and is referred to by number: frames, variable
slots and functions. Nothing is ever taken out of a store, so a number keeps its meaning. The store
also holds the catalog, which maps names to types, and the members of each type.
-/

namespace BlockScript

/-- The number of a variable slot in a store. -/
structure SlotId where
  index : Nat
deriving DecidableEq, Repr

/-- The number of a function in a store. -/
structure FunctionId where
  index : Nat
deriving DecidableEq, Repr

/-- A variable: its declared type, and its value while a program runs. -/
structure Slot where
  name : String
  type : Ty
  value : Option Value

/-- What a call of a function does. -/
inductive Body
  | absent
  /-- A function of the language or of a host that depends on nothing but its arguments. It neither
  reads nor changes the store, the scope or the log: what a host does to these behind a program is
  beyond what is described here. -/
  | native (run : List Value → Except Breakdown Value)
  | print
  /-- The definition of a method, to be run in a frame inside `closure`. -/
  | method (definition : Method) (closure : FrameId)

/-- A signature and a body. Of a method of a type, the first parameter is the receiver. The return
type is open only while the static analysis is still inferring it. -/
structure Function where
  name : String
  params : List Ty
  returns : Option Ty
  body : Body

def Function.arity (f : Function) : Nat := f.params.length

/-- One scope: variables by name, functions by name and arity, and the scope around it. -/
structure Frame where
  parent : Option FrameId
  slots : Table String SlotId
  functions : Table (String × Nat) FunctionId

/-- What a type offers; the arity of a method counts the receiver. -/
structure Members where
  kind : String
  fields : Table String SlotId
  methods : Table (String × Nat) FunctionId

structure Store where
  frames : Array Frame
  slots : Array Slot
  functions : Array Function
  members : Table Ty Members
  catalog : Table String Ty
  /-- How many types hosts have made. -/
  customTypes : Nat

namespace Store

/-! ## Frames -/

def frame (s : Store) (f : FrameId) : Frame := s.frames.getD f.index ⟨none, .empty, .empty⟩

/-- A new frame, empty, inside `parent`. -/
def createFrame (s : Store) (parent : Option FrameId) : FrameId × Store :=
  (⟨s.frames.size⟩, { s with frames := s.frames.push ⟨parent, .empty, .empty⟩ })

/-- A frame and those around it, at most `bound` of them. -/
def chainFrom (s : Store) : (bound : Nat) → FrameId → List FrameId
  | 0, _ => []
  | bound + 1, f =>
    f :: match (s.frame f).parent with
      | some parent => s.chainFrom bound parent
      | none => []

/-- A frame and those around it, from the inside out. A frame is made after the one around it, so
its number bounds the length. -/
def chain (s : Store) (f : FrameId) : List FrameId := s.chainFrom (f.index + 1) f

/-! ## Variables -/

def slot (s : Store) (v : SlotId) : Slot := s.slots.getD v.index ⟨"", .any, none⟩

/-- A new variable that belongs to no frame. -/
def createSlot (s : Store) (slot : Slot) : SlotId × Store :=
  (⟨s.slots.size⟩, { s with slots := s.slots.push slot })

/-- A new variable of a frame; it hides an older one of its name. -/
def defineSlot (s : Store) (f : FrameId) (slot : Slot) : SlotId × Store :=
  let (v, s) := s.createSlot slot
  (v, { s with
    frames := s.frames.modify f.index fun fr => { fr with slots := fr.slots.insert slot.name v } })

def findSlot? (s : Store) (f : FrameId) (name : String) : Option SlotId :=
  (s.chain f).findSome? fun g => (s.frame g).slots.find? name

def lookupSlot (s : Store) (f : FrameId) (name : String) : Except Cause SlotId :=
  match s.findSlot? f name with
  | some v => .ok v
  | none => .error (.undefinedVariable name)

def assign (s : Store) (v : SlotId) (value : Value) : Store :=
  { s with slots := s.slots.modify v.index fun slot => { slot with value := some value } }

/-! ## Functions -/

def function (s : Store) (f : FunctionId) : Function :=
  s.functions.getD f.index ⟨"", [], none, .absent⟩

/-- A new function that belongs to no frame and no type. -/
def createFunction (s : Store) (function : Function) : FunctionId × Store :=
  (⟨s.functions.size⟩, { s with functions := s.functions.push function })

/-- Makes a function known in a frame; it hides an older one of its name and arity. -/
def bindFunction (s : Store) (f : FrameId) (id : FunctionId) : Store :=
  let fn := s.function id
  { s with
    frames := s.frames.modify f.index fun fr =>
      { fr with functions := fr.functions.insert (fn.name, fn.arity) id } }

def defineFunction (s : Store) (f : FrameId) (function : Function) : FunctionId × Store :=
  let (id, s) := s.createFunction function
  (id, s.bindFunction f id)

def findFunction? (s : Store) (f : FrameId) (name : String) (arity : Nat) : Option FunctionId :=
  (s.chain f).findSome? fun g => (s.frame g).functions.find? (name, arity)

def lookupFunction (s : Store) (f : FrameId) (name : String) (arity : Nat) :
    Except Cause FunctionId :=
  match s.findFunction? f name arity with
  | some id => .ok id
  | none => .error (.undefinedFunction name arity)

/-- As `lookupFunction`, for an arity that a host makes up; no function has a negative one. -/
def requestFunction (s : Store) (f : FrameId) (name : String) (arity : Int) :
    Except Cause FunctionId :=
  match arity with
  | .ofNat n => s.lookupFunction f name n
  | .negSucc _ => .error (.undefinedFunction name arity)

def setReturns (s : Store) (id : FunctionId) (type : Ty) : Store :=
  { s with
    functions := s.functions.modify id.index fun fn => { fn with returns := some type } }

/-! ## Types -/

def lookupType (s : Store) (name : String) : Except Cause Ty :=
  match s.catalog.find? name with
  | some type => .ok type
  | none => .error (.unknownType name)

/-- The type of a value. An object has its own, any other value the one that is known by the name
of its kind. -/
def typeOf (s : Store) : Value → Except Cause Ty
  | .object type _ => .ok type
  | v => s.lookupType v.kind

/-- The type that a declaration names. -/
def namedType (s : Store) : Option String → Except Cause (Option Ty)
  | some name => return some (← s.lookupType name)
  | none => .ok none

/-- The type that a declaration names, `Any` where there is none. -/
def typeOrAny (s : Store) (name : Option String) : Except Cause Ty :=
  return (← s.namedType name).getD .any

/-- The types of parameters in order. -/
def paramTypes (s : Store) : List Param → Except Cause (List Ty)
  | [] => .ok []
  | p :: ps => return (← s.typeOrAny p.type) :: (← s.paramTypes ps)

def membersOf (s : Store) (type : Ty) : Members :=
  (s.members.find? type).getD ⟨type.name, .empty, .empty⟩

/-- A new type, which the catalog does not know yet. -/
def createType (s : Store) (name kind : String) : Ty × Store :=
  let type := Ty.custom s.customTypes name
  (type, { s with
    members := s.members.insert type ⟨kind, .empty, .empty⟩
    customTypes := s.customTypes + 1 })

/-- Enters a type in the catalog under its name, which no other type may have there. -/
def register (s : Store) (type : Ty) : Except Misuse Store :=
  match s.catalog.find? type.name with
  | some other => if other = type then .ok s else .error (.alreadyRegistered type.name)
  | none => .ok { s with catalog := s.catalog.insert type.name type }

/-- Takes a type out of the catalog, if it is there. The names of built-in types stay. -/
def unregister (s : Store) (type : Ty) : Except Misuse Store :=
  if Ty.builtIn.any (·.name = type.name) then .error (.builtIn type.name)
  else if s.catalog.find? type.name = some type then
    .ok { s with catalog := s.catalog.erase type.name }
  else .ok s

/-- Gives a type a field. -/
def addField (s : Store) (type : Ty) (name : String) (fieldType : Ty) : Store :=
  let (v, s) := s.createSlot ⟨name, fieldType, none⟩
  let m := s.membersOf type
  { s with members := s.members.insert type { m with fields := m.fields.insert name v } }

/-- Gives a type a method; the receiver comes before the other parameters. -/
def defineMethod (s : Store) (type : Ty) (name : String) (params : List Ty) (returns : Ty)
    (body : Body) : FunctionId × Store :=
  let fn : Function := ⟨name, type :: params, some returns, body⟩
  let (id, s) := s.createFunction fn
  let m := s.membersOf type
  (id, { s with
    members := s.members.insert type { m with methods := m.methods.insert (name, fn.arity) id } })

def lookupField (s : Store) (type : Ty) (name : String) : Except Cause SlotId :=
  match (s.membersOf type).fields.find? name with
  | some v => .ok v
  | none => .error (.unknownField type.name name)

/-- A method by its name and its number of arguments, the receiver not counted. -/
def findMethod? (s : Store) (type : Ty) (name : String) (arguments : Nat) : Option FunctionId :=
  (s.membersOf type).methods.find? (name, arguments + 1)

def lookupMethod (s : Store) (type : Ty) (name : String) (arguments : Nat) :
    Except Cause FunctionId :=
  match s.findMethod? type name arguments with
  | some id => .ok id
  | none => .error (.unknownMethod type.name name arguments)

/-- As `lookupMethod`, for a number of arguments that a host makes up. -/
def requestMethod (s : Store) (type : Ty) (name : String) (arguments : Int) :
    Except Cause FunctionId :=
  match arguments with
  | .ofNat n => s.lookupMethod type name n
  | .negSucc _ => .error (.unknownMethod type.name name arguments)

end Store

end BlockScript
