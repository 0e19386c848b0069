import BlockScript.Store.Basic
import BlockScript.Text.Quoted
import BlockScript.Token.Basic

/-!
# Views

What a store holds, in the order of names, and one-line descriptions for readers.
-/

namespace BlockScript

namespace Store

/-- The variables of a frame in the order of their names. -/
def slotsOf (s : Store) (f : FrameId) : List Slot :=
  ((s.frame f).slots.entries.map fun (_, v) => s.slot v).mergeSort
    fun a b => !(b.name < a.name : Bool)

/-- The functions of a frame, by name and arity, in that order. -/
def functionsOf (s : Store) (f : FrameId) : List (String × Nat) :=
  (s.frame f).functions.keys.mergeSort
    fun a b => (a.1 < b.1 : Bool) || (a.1 = b.1 && a.2 ≤ b.2)

def describeFrame (s : Store) (f : FrameId) : String :=
  "Scope(" ++ ", ".intercalate ((s.slotsOf f).map Slot.name) ++ ")"

end Store

/-- A name and an arity, as messages write them. -/
def signature (name : String) (arity : Nat) : String := name ++ "/" ++ toString arity

def Slot.describe (v : Slot) : String := "Variable(" ++ v.name ++ ": " ++ v.type.name ++ ")"

def Function.signature (f : Function) : String := BlockScript.signature f.name f.arity

def Function.describe (f : Function) : String := "Function(" ++ f.signature ++ ")"

def Ty.describe (t : Ty) : String := "Type(" ++ t.name ++ ")"

def Token.describe (t : Token) : String :=
  "Token(" ++ t.kind.label ++ ", " ++ Text.Quoted.encode t.value ++ ", " ++
    toString t.position.line ++ ", " ++ toString t.position.column ++ ")"

end BlockScript
