import BlockScript.Diagnostic

/-!
# Types

The nine types of the language and those that a host adds. A host's type is told from others by its
index alone: two may share a name.
-/

namespace BlockScript

inductive Ty
  | any | nil | comparable | boolean | integer | decimal | character | string | iterable
  | custom (index : Nat) (label : String)
deriving DecidableEq, Repr

namespace Ty

def name : Ty → String
  | any => "Any"
  | nil => "Nil"
  | comparable => "Comparable"
  | boolean => "Boolean"
  | integer => "Integer"
  | decimal => "Decimal"
  | character => "Character"
  | string => "String"
  | iterable => "IntegerIterable"
  | custom _ label => label

def builtIn : List Ty :=
  [any, nil, comparable, boolean, integer, decimal, character, string, iterable]

/-- The types whose values can be compared with each other. -/
def isOrdered : Ty → Bool
  | integer | character | string | decimal => true
  | _ => false

def isNumeric : Ty → Bool
  | integer | decimal => true
  | _ => false

/-- Whether a value of type `source` may stand where `target` is asked for. -/
def accepts (target source : Ty) : Bool :=
  target = source || target = any || (target = comparable && source.isOrdered)

def requireAssignable (target source : Ty) : Except Cause Unit :=
  if target.accepts source then .ok () else .error (.notAssignable target.name source.name)

theorem accepts_self (t : Ty) : t.accepts t = true := by simp [accepts]

theorem any_accepts (t : Ty) : any.accepts t = true := by simp [accepts]

end Ty

end BlockScript
